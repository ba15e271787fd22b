import KeepBlame.Disk.Find
import KeepBlame.Proofs.Disk
import KeepBlame.Proofs.Keys

/-! The files that a search finds. A file is found by the names that lead to it: every directory on the way is a real
one and not that of a repository, and neither the file nor a directory on the way is excluded. -/
namespace KeepBlame

structure Ordinary (name : String) : Prop where
  full : name ≠ ""
  notHere : name ≠ "."
  notUp : name ≠ ".."
  whole : '/' ∉ name.toList

instance decidableOrdinary (name : String) : Decidable (Ordinary name) :=
  decidable_of_iff (name ≠ "" ∧ name ≠ "." ∧ name ≠ ".." ∧ '/' ∉ name.toList)
    ⟨fun is => ⟨is.1, is.2.1, is.2.2.1, is.2.2.2⟩, fun is => ⟨is.full, is.notHere, is.notUp, is.whole⟩⟩

theorem ordinaryPiece {name : String} (ordinary : Ordinary name) : Component.ofPiece name.toList = some (.name name) := by
  have other {text : String} (differs : name ≠ text) : name.toList ≠ text.toList := fun same =>
    differs (String.toList_injective same)
  have full : name.toList ≠ [] := other ordinary.full
  have notHere : name.toList ≠ ['.'] := other ordinary.notHere
  have notUp : name.toList ≠ ['.', '.'] := other ordinary.notUp
  simp [Component.ofPiece, full, notHere, notUp]

namespace Path

theorem piecesSlash (xs ys : List Char) : pieces (xs ++ '/' :: ys) = pieces xs ++ pieces ys :=
  List.splitOnP_append_cons xs ys (beq_self_eq_true '/')

theorem piecesName {name : String} (ordinary : Ordinary name) : pieces name.toList = [name.toList] := by
  refine List.splitOnP_eq_singleton fun c mem => beq_false_of_ne ?_
  rintro rfl
  exact ordinary.whole mem

theorem relativeName {name : String} (ordinary : Ordinary name) : isAbsoluteText name.toList = false := by
  cases cs : name.toList with
  | nil => rfl
  | cons c rest =>
    have other : c ≠ '/' := by
      rintro rfl
      exact ordinary.whole (cs ▸ List.mem_cons_self)
    simp [isAbsoluteText, other]

theorem firstPiece (xs ys : List Char) : (pieces (xs ++ '/' :: ys)).head? = (pieces xs).head? := by
  have full : pieces xs ≠ [] := List.splitOnP_ne_nil _ _
  rw [piecesSlash, List.head?_append_of_ne_nil _ full]

def leading (cs : List Char) : List Component :=
  if isAbsoluteText cs then [.root] else if (pieces cs).head? = some ['.'] then [.here] else []

theorem componentsLeading (cs : List Char) :
    componentsOf cs = leading cs ++ (pieces cs).filterMap Component.ofPiece := by
  simp only [componentsOf, leading]
  split
  · rfl
  · split <;> rfl

theorem leadingSlash {xs : List Char} (full : xs ≠ []) (ys : List Char) : leading (xs ++ '/' :: ys) = leading xs := by
  have start : isAbsoluteText (xs ++ '/' :: ys) = isAbsoluteText xs := by
    rw [isAbsoluteText, List.head?_append_of_ne_nil _ full, isAbsoluteText]
  simp only [leading, firstPiece, start]

theorem leadingBehind (xs ys : List Char) : leading (xs ++ '/' :: ys) = leading (xs ++ ['/']) := by
  cases xs with
  | nil => rfl
  | cons x xs => rw [leadingSlash (List.cons_ne_nil x xs), leadingSlash (List.cons_ne_nil x xs)]

theorem leadingName {name : String} (ordinary : Ordinary name) : leading name.toList = [] := by
  have notHere : (pieces name.toList).head? ≠ some ['.'] := by
    rw [piecesName ordinary]
    intro same
    exact ordinary.notHere (String.toList_injective (Option.some.inj same))
  rw [leading, if_neg notHere, relativeName ordinary, if_neg (by decide)]

theorem joinComponents (p : Path) {name : String} (ordinary : Ordinary name) :
    (p.join name).components = p.components ++ [.name name] := by
  have last : (pieces name.toList).filterMap Component.ofPiece = [.name name] := by
    simp [piecesName ordinary, ordinaryPiece ordinary]
  have nothing : (pieces []).filterMap Component.ofPiece = [] := by decide
  rw [join, relativeName ordinary, if_neg (by decide)]
  by_cases slash : p.text.toList.getLast? = some '/'
  · obtain ⟨xs, split⟩ := List.getLast?_eq_some_iff.mp slash
    have text : (p.text ++ name).toList = xs ++ '/' :: name.toList := by simp [split]
    rw [if_pos (by simp [slash]), components, components, text, split]
    simp only [componentsLeading, leadingBehind xs name.toList, piecesSlash, List.filterMap_append, last, nothing,
      List.append_nil, List.append_assoc]
  · by_cases empty : p.text = ""
    · have none : componentsOf [] = [] := by decide
      simp [empty, components, none, componentsLeading, leadingName ordinary, last]
    · have full : p.text.toList ≠ [] := by simpa using empty
      simp [empty, slash, components, componentsLeading, leadingSlash full, piecesSlash, last]

def below (p : Path) (names : List String) : Path := names.foldl join p

theorem belowComponents (p : Path) {names : List String} (ordinary : ∀ name ∈ names, Ordinary name) :
    (p.below names).components = p.components ++ names.map .name := by
  induction names generalizing p with
  | nil => simp [below]
  | cons name names ih =>
    have later : ∀ other ∈ names, Ordinary other := fun other mem => ordinary other (List.mem_cons_of_mem name mem)
    have step := ih (p.join name) later
    rw [joinComponents p (ordinary name List.mem_cons_self), List.append_assoc, List.singleton_append] at step
    exact step

theorem joinFileName (p : Path) {name : String} (ordinary : Ordinary name) : (p.join name).fileName? = some name := by
  simp [fileName?, joinComponents p ordinary]

end Path

namespace Disk

structure Tidy (d : Disk) : Prop where
  once : (d.nodes.map Prod.fst).Nodup
  named : ∀ entry ∈ d.nodes, ∀ name ∈ entry.1, Ordinary name

/-- These names lead from the directory to a file that the search finds. -/
structure Found (d : Disk) (q : Query) (dir : Place) (path : Path) (names : List String) : Prop where
  file : ∃ bytes, d.node? (dir ++ names) = some (.file bytes)
  wanted : q.wanted (path.below names) = true
  through : ∀ early, early <+: names → early ≠ names →
    d.node? (dir ++ early) = some .directory ∧ (path.below early).fileName? ≠ some repositoryName
  kept : ∀ early, early <+: names → q.excludes (path.below early) = false

section Entries
variable {d : Disk} (tidy : Tidy d)
include tidy

theorem nodeIff {place : Place} {node : Node} (inner : place ≠ []) : d.node? place = some node ↔ (place, node) ∈ d.nodes := by
  rw [node?, if_neg (by simpa using inner), List.lookup_eq_some_iff]
  constructor
  · intro found
    obtain ⟨early, late, split, _⟩ := found
    exact split ▸ List.mem_append_right early List.mem_cons_self
  · intro mem
    obtain ⟨early, late, split⟩ := List.append_of_mem mem
    refine ⟨early, late, split, ?_⟩
    intro entry before
    have once := tidy.once
    rw [split, List.map_append] at once
    have apart := (List.nodup_append.mp once).2.2 entry.1 (List.mem_map_of_mem before) place List.mem_cons_self
    simpa using apart.symm

theorem nodeOrdinary {dir : Place} {name : String} {node : Node} (found : d.node? (dir ++ [name]) = some node) :
    Ordinary name :=
  tidy.named _ ((nodeIff tidy (by simp)).mp found) name (by simp)

theorem childrenIff {dir place : Place} {node : Node} :
    (place, node) ∈ d.children dir ↔ ∃ name, place = dir ++ [name] ∧ d.node? (dir ++ [name]) = some node := by
  simp only [children, List.mem_filter, Bool.and_eq_true, List.isPrefixOf_iff_prefix, beq_iff_eq]
  constructor
  · intro is
    obtain ⟨mem, ⟨rest, rfl⟩, length⟩ := is
    obtain ⟨name, rfl⟩ : ∃ name, rest = [name] := by
      rw [← List.length_eq_one_iff]
      simpa using length
    exact ⟨name, rfl, (nodeIff tidy (by simp)).mpr mem⟩
  · intro is
    obtain ⟨name, rfl, found⟩ := is
    exact ⟨(nodeIff tidy (by simp)).mp found, List.prefix_append _ _, by simp⟩

end Entries

inductive Reaches (d : Disk) (q : Query) : Place → Path → List String → Prop where
  | file {dir path name bytes} (node : d.node? (dir ++ [name]) = some (.file bytes))
      (kept : q.excludes (path.join name) = false) (wanted : q.wanted (path.join name) = true) :
      Reaches d q dir path [name]
  | directory {dir path name names} (node : d.node? (dir ++ [name]) = some .directory) (other : name ≠ repositoryName)
      (kept : q.excludes (path.join name) = false) (next : Reaches d q (dir ++ [name]) (path.join name) names) :
      Reaches d q dir path (name :: names)

def visit (d : Disk) (q : Query) (path : Path) (entry : Place × Node) : List Path :=
  let name := entry.1.getLast?.getD ""
  let p := path.join name
  match entry.2 with
  | .directory => if name == repositoryName || q.excludes p then [] else d.walk q entry.1 p
  | .file _ => if !q.excludes p && q.wanted p then [p] else []
  | .link _ => []

theorem walkVisits (d : Disk) (q : Query) (dir : Place) (path : Path) :
    d.walk q dir path = (d.children dir).flatMap (d.visit q path) := by
  rw [walk]
  conv => rhs; rw [← List.attach_map_subtype_val (d.children dir), List.flatMap_map]
  rfl

theorem visitIff {d : Disk} {q : Query} {dir : Place} {path p : Path} {name : String} {node : Node} :
    p ∈ d.visit q path (dir ++ [name], node) ↔ q.excludes (path.join name) = false ∧
      ((∃ bytes, node = .file bytes ∧ q.wanted (path.join name) = true ∧ p = path.join name) ∨
        (node = .directory ∧ name ≠ repositoryName ∧ p ∈ d.walk q (dir ++ [name]) (path.join name))) := by
  cases node with
  | file bytes => simp [visit, and_assoc]
  | directory =>
    simp only [visit, List.getLast?_concat, Option.getD_some]
    split
    · rename_i is
      simp only [Bool.or_eq_true, beq_iff_eq] at is
      grind
    · rename_i is
      simp only [Bool.or_eq_true, beq_iff_eq, not_or, Bool.not_eq_true] at is
      simp [is]
  | link target => simp [visit]

theorem visitPairwise {d : Disk} {q : Query} {dir : Place} {path : Path} {name : String} {r : Path → Path → Prop}
    (inner : (d.walk q (dir ++ [name]) (path.join name)).Pairwise r) (node : Node) :
    (d.visit q path (dir ++ [name], node)).Pairwise r := by
  cases node with
  | file bytes =>
    simp only [visit]
    split
    · exact List.pairwise_singleton _ _
    · exact .nil
  | directory =>
    simp only [visit, List.getLast?_concat, Option.getD_some]
    split
    · exact .nil
    · exact inner
  | link target => exact .nil

section Walk
variable {d : Disk} {q : Query} (tidy : Tidy d)
include tidy

theorem walkReaches {dir : Place} {path p : Path} (mem : p ∈ d.walk q dir path) :
    ∃ names, Reaches d q dir path names ∧ p = path.below names := by
  induction dir, path using walk.induct d with
  | case1 dir path ih =>
    rw [walkVisits] at mem
    obtain ⟨⟨place, node⟩, child, here⟩ := List.mem_flatMap.mp mem
    obtain ⟨name, rfl, found⟩ := (childrenIff tidy).mp child
    have inner := ih _ child
    simp only [List.getLast?_concat, Option.getD_some] at inner
    obtain ⟨kept, ⟨bytes, rfl, wanted, rfl⟩ | ⟨rfl, other, later⟩⟩ := visitIff.mp here
    · exact ⟨[name], .file found kept wanted, rfl⟩
    · obtain ⟨names, reaches, rfl⟩ := inner later
      exact ⟨name :: names, .directory found other kept reaches, rfl⟩

theorem walkEntry {dir : Place} {path p : Path} {name : String} {node : Node} (found : d.node? (dir ++ [name]) = some node)
    (mem : p ∈ d.visit q path (dir ++ [name], node)) : p ∈ d.walk q dir path := by
  rw [walkVisits]
  exact List.mem_flatMap.mpr ⟨_, (childrenIff tidy).mpr ⟨name, rfl, found⟩, mem⟩

theorem reachesWalk {dir : Place} {path : Path} {names : List String} (reaches : Reaches d q dir path names) :
    path.below names ∈ d.walk q dir path := by
  induction reaches with
  | file node kept wanted => exact walkEntry tidy node (visitIff.mpr ⟨kept, .inl ⟨_, rfl, wanted, rfl⟩⟩)
  | directory node other kept _ ih => exact walkEntry tidy node (visitIff.mpr ⟨kept, .inr ⟨rfl, other, ih⟩⟩)

theorem reachesOrdinary {dir : Place} {path : Path} {names : List String} (reaches : Reaches d q dir path names) :
    ∀ name ∈ names, Ordinary name := by
  induction reaches with
  | file node => exact List.forall_mem_singleton.mpr (nodeOrdinary tidy node)
  | directory node _ _ _ ih => exact List.forall_mem_cons.mpr ⟨nodeOrdinary tidy node, ih⟩

theorem visitComponents {dir : Place} {path p : Path} {name : String} {node : Node}
    (found : d.node? (dir ++ [name]) = some node) (mem : p ∈ d.visit q path (dir ++ [name], node)) :
    ∃ more, p.components = path.components ++ .name name :: more := by
  have ordinary := nodeOrdinary tidy found
  obtain ⟨_, ⟨_, _, _, rfl⟩ | ⟨_, _, later⟩⟩ := visitIff.mp mem
  · exact ⟨[], path.joinComponents ordinary⟩
  · obtain ⟨names, reaches, rfl⟩ := walkReaches tidy later
    refine ⟨names.map .name, ?_⟩
    rw [Path.belowComponents _ (reachesOrdinary tidy reaches), path.joinComponents ordinary, List.append_assoc,
      List.singleton_append]

theorem walkApart (dir : Place) (path : Path) : (d.walk q dir path).Pairwise fun a b => a.components ≠ b.components := by
  induction dir, path using walk.induct d with
  | case1 dir path ih =>
    rw [walkVisits, List.pairwise_flatMap]
    constructor
    · rintro ⟨place, node⟩ child
      obtain ⟨name, rfl, _⟩ := (childrenIff tidy).mp child
      have inner := ih _ child
      simp only [List.getLast?_concat, Option.getD_some] at inner
      exact visitPairwise inner node
    · have places : (d.children dir).Pairwise fun a b => a.1 ≠ b.1 := (List.pairwise_map.mp tidy.once).filter _
      -- Behind different entries of one directory the paths differ in the name of the entry.
      refine places.imp_of_mem ?_
      rintro ⟨place, node⟩ ⟨place', node'⟩ left right apart p first r second same
      obtain ⟨name, rfl, found⟩ := (childrenIff tidy).mp left
      obtain ⟨name', rfl, found'⟩ := (childrenIff tidy).mp right
      obtain ⟨more, one⟩ := visitComponents tidy found first
      obtain ⟨more', two⟩ := visitComponents tidy found' second
      rw [one, two] at same
      cases List.append_cancel_left same
      exact apart rfl

theorem otherName (path : Path) {dir : Place} {name : String} {node : Node} (found : d.node? (dir ++ [name]) = some node) :
    (path.join name).fileName? ≠ some repositoryName ↔ name ≠ repositoryName := by
  rw [path.joinFileName (nodeOrdinary tidy found), Ne, Option.some.injEq]

theorem foundReaches {dir : Place} {path : Path} {names : List String} (found : Found d q dir path names)
    (directory : d.node? dir = some .directory) : Reaches d q dir path names := by
  induction names generalizing dir path with
  | nil =>
    obtain ⟨bytes, file⟩ := found.file
    rw [List.append_nil, directory] at file
    cases file
  | cons name names ih =>
    have first : [name] <+: name :: names := List.prefix_append [name] names
    have kept : q.excludes (path.join name) = false := found.kept [name] first
    by_cases last : names = []
    · subst last
      obtain ⟨bytes, file⟩ := found.file
      exact .file file kept found.wanted
    · obtain ⟨node, other⟩ := found.through [name] first (by simpa using Ne.symm last)
      have later : Found d q (dir ++ [name]) (path.join name) names := by
        refine ⟨by simpa using found.file, found.wanted, ?_, ?_⟩
        · intro early part proper
          rw [List.append_assoc]
          exact found.through (name :: early) (List.cons_prefix_cons.mpr ⟨rfl, part⟩) (by simpa using proper)
        · intro early part
          exact found.kept (name :: early) (List.cons_prefix_cons.mpr ⟨rfl, part⟩)
      exact .directory node ((otherName tidy path node).mp other) kept (ih later node)

omit tidy in
theorem foundBefore {dir : Place} {path : Path} {name : String} {names : List String}
    (directory : d.node? dir = some .directory) (other : path.fileName? ≠ some repositoryName)
    (shown : q.excludes path = false) (found : Found d q (dir ++ [name]) (path.join name) names) :
    Found d q dir path (name :: names) := by
  refine ⟨by simpa using found.file, found.wanted, ?_, ?_⟩
  · intro early part proper
    rcases List.prefix_cons_iff.mp part with rfl | ⟨inner, rfl, within⟩
    · rw [List.append_nil]
      exact ⟨directory, other⟩
    · have step := found.through inner within (by simpa using proper)
      rw [List.append_assoc] at step
      exact step
  · intro early part
    rcases List.prefix_cons_iff.mp part with rfl | ⟨inner, rfl, within⟩
    · exact shown
    · exact found.kept inner within

theorem reachesFound {dir : Place} {path : Path} {names : List String} (reaches : Reaches d q dir path names)
    (directory : d.node? dir = some .directory) (other : path.fileName? ≠ some repositoryName)
    (shown : q.excludes path = false) : Found d q dir path names := by
  induction reaches with
  | @file dir path name bytes node kept wanted =>
    refine foundBefore directory other shown ⟨⟨bytes, by simpa using node⟩, wanted, ?_, ?_⟩
    · intro early part proper
      exact absurd (List.prefix_nil.mp part) proper
    · intro early part
      cases List.prefix_nil.mp part
      exact kept
  | @directory dir path name names node named kept next ih =>
    exact foundBefore directory other shown (ih node ((otherName tidy path node).mpr named) kept)

end Walk

-- Only a link at the very end is treated otherwise, and the place that was reached is no link.
theorem followWithReal {d : Disk} {again other : Option (Place → List (List Char) → Except OsError Place)} {place : Place}
    (safe : ∀ next ∈ again, ∃ after ∈ other, ∀ {here todo}, next here todo = .ok place → after here todo = .ok place)
    (directory : d.node? place = some .directory) {here : Place} {todo : List (List Char)}
    (ok : d.followWith false again here todo = .ok place) : d.followWith true other here todo = .ok place := by
  fun_induction d.followWith false again here todo with
  | case1 => exact ok
  | case2 here piece rest filler ih =>
    simp only [followWith, filler]
    exact ih ok
  | case3 => cases ok
  | case4 here piece rest name component folder ih =>
    simp only [followWith, component, folder]
    exact ih ok
  | case5 here piece rest name component bytes file last =>
    cases ok
    rw [file] at directory
    cases directory
  | case6 => cases ok
  | case7 here piece rest name component target link last =>
    cases ok
    rw [link] at directory
    cases directory
  | case8 => cases ok
  | case9 => cases ok
  | case10 here piece rest name component target link more full next held =>
    obtain ⟨after, kept, follows⟩ := safe next held
    simp only [followWith, component, link, Bool.not_true, Bool.and_false, Bool.false_eq_true, if_false, if_neg full,
      Option.mem_def.mp kept]
    exact follows ok
  | case11 here piece rest component notName up ih =>
    simp only [followWith, up]
    exact ih ok

theorem followReal {d : Disk} {links : Nat} {here place : Place} {todo : List (List Char)}
    (ok : d.follow false links here todo = .ok place) (directory : d.node? place = some .directory) :
    d.follow true links here todo = .ok place := by
  induction links generalizing here todo with
  | zero => exact followWithReal (by simp) directory ok
  | succ links ih =>
    refine followWithReal (fun next held => ?_) directory ok
    cases held
    exact ⟨_, rfl, ih⟩

theorem findWalks {d : Disk} {root : Path} {place : Place} (located : d.locate root false = .ok place)
    (directory : d.node? place = some .directory) (q : Query) : d.find root q =
      if root.fileName? = some repositoryName ∨ q.excludes root = true then []
      else Ordered.sortBy Path.components (d.walk q place root) := by
  have target : d.locate root true = .ok place := by
    unfold locate at located ⊢
    split at located
    · cases located
    · rename_i full
      rw [if_neg full]
      exact followReal located directory
  have folder : d.isFile root = false := by
    simp [isFile, stat, nodeAt, target, directory, bind, Except.bind]
  simp only [find, folder, Bool.false_eq_true, if_false, located, target, beq_self_eq_true, Bool.true_and, Bool.or_eq_true,
    beq_iff_eq]

theorem foundShown {d : Disk} {q : Query} {place : Place} {root : Path} {names : List String}
    (found : Found d q place root names) (directory : d.node? place = some .directory) :
    root.fileName? ≠ some repositoryName ∧ q.excludes root = false := by
  refine ⟨(found.through [] List.nil_prefix ?_).2, found.kept [] List.nil_prefix⟩
  rintro rfl
  obtain ⟨bytes, file⟩ := found.file
  rw [List.append_nil, directory] at file
  cases file

theorem findsJustReached {d : Disk} (tidy : Tidy d) {root : Path} {place : Place} (located : d.locate root false = .ok place)
    (directory : d.node? place = some .directory) (q : Query) :
    (d.find root q).Pairwise (fun a b => a.components < b.components) ∧ (d.find root q).Nodup ∧
      ∀ p, p ∈ d.find root q ↔ ∃ names, p = root.below names ∧ Found d q place root names := by
  rw [findWalks located directory]
  split
  · rename_i hidden
    refine ⟨.nil, .nil, fun p => iff_of_false List.not_mem_nil ?_⟩
    rintro ⟨names, _, found⟩
    obtain ⟨other, shown⟩ := foundShown found directory
    rcases hidden with named | excluded
    · exact other named
    · rw [shown] at excluded
      cases excluded
  · rename_i visible
    simp only [not_or, Bool.not_eq_true] at visible
    have ascending := Ordered.sortByStrict (walkApart tidy (q := q) place root)
    refine ⟨ascending, ascending.imp fun less same => Ordered.neOfLt less (congrArg Path.components same), fun p => ?_⟩
    rw [Ordered.sortByMem]
    constructor
    · intro mem
      obtain ⟨names, reaches, is⟩ := walkReaches tidy mem
      exact ⟨names, is, reachesFound tidy reaches directory visible.1 visible.2⟩
    · rintro ⟨names, rfl, found⟩
      exact reachesWalk tidy (foundReaches tidy found directory)

def workshop : Disk := { nodes := [(["w"], .directory), (["w", "src"], .directory), (["w", "src", "b.c"], .file [98]),
  (["w", ".git"], .directory), (["w", ".git", "x.c"], .file [120]), (["w", "out"], .directory),
  (["w", "out", "c.c"], .file [99]), (["w", "latest"], .link "src")] }

def sources : Query := ⟨[.path ⟨"/w/out"⟩], fun p => p.extension? == some "c"⟩

theorem workshopSearched : Tidy workshop ∧ workshop.locate ⟨"/w"⟩ false = .ok ["w"] ∧
    workshop.node? ["w"] = some .directory ∧ (workshop.find ⟨"/w"⟩ sources).Nodup ∧
    ⟨"/w/src/b.c"⟩ ∈ workshop.find ⟨"/w"⟩ sources := by
  have tidy : Tidy workshop := ⟨by decide, by decide⟩
  have located : workshop.locate ⟨"/w"⟩ false = .ok ["w"] := by decide +kernel
  have directory : workshop.node? ["w"] = some .directory := by decide
  obtain ⟨_, once, finds⟩ := findsJustReached tidy located directory sources
  have file : workshop.node? (["w"] ++ ["src"] ++ ["b.c"]) = some (.file [98]) := by decide
  have reaches : Reaches workshop sources ["w"] ⟨"/w"⟩ ["src", "b.c"] :=
    .directory (by decide) (by decide) (by decide) (.file file (by decide) (by decide))
  have found := reachesFound tidy reaches directory (by decide) (by decide)
  exact ⟨tidy, located, directory, once, (finds _).mpr ⟨_, by decide, found⟩⟩

end Disk
end KeepBlame
