import KeepBlame.Disk.Basic

/-! Files on a disk. Writing to a file changes its bytes and nothing about the ways that lead to it or to any other
file; paths that are the same by their components lead to one place. -/
namespace KeepBlame.Disk

theorem fileAtIff {d : Disk} {p : Path} {place : Place} {bytes : Bytes} :
    d.fileAt p = .ok (place, bytes) ↔ d.locate p true = .ok place ∧ d.node? place = some (.file bytes) := by
  unfold fileAt nodeAt
  cases located : d.locate p true with
  | error e => simp [bind, Except.bind]
  | ok here =>
    simp only [bind, Except.bind, Except.ok.injEq]
    cases node : d.node? here with
    | none =>
      simp only [reduceCtorEq, false_iff, not_and]
      rintro rfl
      simp [node]
    | some n =>
      cases n with
      | file old =>
        simp only [Except.ok.injEq, Prod.mk.injEq]
        constructor
        · rintro ⟨rfl, rfl⟩
          exact ⟨rfl, node⟩
        · rintro ⟨rfl, file⟩
          simp_all
      | directory =>
        simp only [reduceCtorEq, false_iff, not_and]
        rintro rfl
        simp [node]
      | link target =>
        simp only [reduceCtorEq, false_iff, not_and]
        rintro rfl
        simp [node]

theorem readIff {d : Disk} {p : Path} {bytes : Bytes} :
    d.read p = .ok bytes ↔ ∃ place, d.locate p true = .ok place ∧ d.node? place = some (.file bytes) := by
  simp only [← fileAtIff, read]
  cases d.fileAt p with
  | error e => simp [bind, Except.bind]
  | ok found => simp [bind, Except.bind, pure, Except.pure, Prod.ext_iff]

theorem openFileOk {d : Disk} {p : Path} {place : Place} {bytes : Bytes} (opened : d.openFile p = .ok (place, bytes)) :
    d.locate p true = .ok place ∧ d.node? place = some (.file bytes) := by
  unfold openFile at opened
  cases found : d.fileAt p with
  | error e => simp [found, bind, Except.bind] at opened
  | ok file =>
    simp only [found, bind, Except.bind] at opened
    split at opened <;> cases opened
    exact fileAtIff.mp found

-- The file of this path can be read, and a writer gets this error.
def Refuses (d : Disk) (p : Path) (e : OsError) : Prop :=
  ∃ place, d.locate p true = .ok place ∧ d.refusals.lookup place = some e

theorem openFileHere {d : Disk} {p : Path} {place : Place} {bytes : Bytes} (located : d.locate p true = .ok place)
    (file : d.node? place = some (.file bytes)) :
    d.openFile p =
      match d.refusals.lookup place with
      | some e => .error e
      | none => .ok (place, bytes) := by
  unfold openFile
  rw [fileAtIff.mpr ⟨located, file⟩]
  rfl

theorem sizeOfRead {d : Disk} {p : Path} {bytes : Bytes} (ok : d.read p = .ok bytes) : d.size p = .ok bytes.length := by
  obtain ⟨place, located, file⟩ := readIff.mp ok
  simp [size, stat, nodeAt, located, file, bind, Except.bind]

theorem lookupMap {nodes : List (Place × Node)} {place : Place} {node : Node} (other : Place) :
    (nodes.map fun entry => if entry.1 == place then (place, node) else entry).lookup other =
      if other = place then (nodes.lookup place).map fun _ => node else nodes.lookup other := by
  induction nodes with
  | nil => simp
  | cons entry rest ih =>
    obtain ⟨key, value⟩ := entry
    simp only [beq_iff_eq, List.map_cons] at ih ⊢
    by_cases here : key = place
    · subst here
      by_cases same : other = key
      · simp [same]
      · simp only [if_true, List.lookup_cons, beq_eq_false_iff_ne.mpr same, ih, if_neg same]
    · by_cases same : other = place
      · subst same
        simp only [if_neg here, List.lookup_cons, beq_eq_false_iff_ne.mpr (Ne.symm here), ih, if_true]
      · simp only [if_neg here, List.lookup_cons, ih, if_neg same]

theorem writeNode {d : Disk} {place : Place} {old : Bytes} (file : d.node? place = some (.file old)) (bytes : Bytes)
    (other : Place) : (d.write place bytes).node? other = if other = place then some (.file bytes) else d.node? other := by
  unfold node? at *
  split at file
  · cases file
  · rename_i inner
    simp only [write, put, file, Option.isSome_some, if_true, lookupMap, Option.map_some]
    by_cases same : other = place
    · subst same
      simp [inner]
    · simp [same]

def blank : Node → Node
  | .file _ => .file []
  | node => node

structure SameShape (d e : Disk) : Prop where
  nodes : ∀ place, (d.node? place).map blank = (e.node? place).map blank
  refusals : d.refusals = e.refusals

theorem sameShapeRefl (d : Disk) : SameShape d d := ⟨fun _ => rfl, rfl⟩

theorem sameShapeTrans {a b c : Disk} (ab : SameShape a b) (bc : SameShape b c) : SameShape a c :=
  ⟨fun place => (ab.nodes place).trans (bc.nodes place), ab.refusals.trans bc.refusals⟩

theorem writeRefusals (d : Disk) (place : Place) (bytes : Bytes) : (d.write place bytes).refusals = d.refusals := by
  unfold write put
  split <;> rfl

theorem writeSameShape {d : Disk} {place : Place} {old : Bytes} (file : d.node? place = some (.file old))
    (bytes : Bytes) : SameShape (d.write place bytes) d := by
  refine ⟨fun other => ?_, writeRefusals d place bytes⟩
  rw [writeNode file]
  split
  · rename_i same
    rw [same, file]
    rfl
  · rfl

theorem shapeNone {d e : Disk} (same : SameShape d e) {place : Place} (h : d.node? place = none) :
    e.node? place = none := by
  have shape := same.nodes place
  rw [h] at shape
  exact Option.map_eq_none_iff.mp shape.symm

theorem shapeFile {d e : Disk} (same : SameShape d e) {place : Place} {bytes : Bytes}
    (h : d.node? place = some (.file bytes)) : ∃ other, e.node? place = some (.file other) := by
  have shape := same.nodes place
  rw [h] at shape
  obtain ⟨node, found, blank⟩ := Option.map_eq_some_iff.mp shape.symm
  cases node with
  | file other => exact ⟨other, found⟩
  | directory => cases blank
  | link target => cases blank

theorem shapeOther {d e : Disk} (same : SameShape d e) {place : Place} {node : Node}
    (h : d.node? place = some node) (other : ∀ bytes, node ≠ .file bytes) : e.node? place = some node := by
  have shape := same.nodes place
  rw [h] at shape
  obtain ⟨found, here, blank⟩ := Option.map_eq_some_iff.mp shape.symm
  cases node with
  | file bytes => exact absurd rfl (other bytes)
  | directory =>
    cases found <;> cases blank
    exact here
  | link target =>
    cases found <;> cases blank
    exact here

theorem followWithSameShape {d e : Disk} (same : SameShape d e) (followLast : Bool)
    (again : Option (Place → List (List Char) → Except OsError Place)) (here : Place) (todo : List (List Char)) :
    d.followWith followLast again here todo = e.followWith followLast again here todo := by
  fun_induction d.followWith followLast again here todo with
  | case1 => rfl
  | case2 here piece rest filler ih => simp only [ih, followWith, filler]
  | case3 here piece rest name component absent =>
    simp only [followWith, component, shapeNone same absent]
  | case4 here piece rest name component directory ih =>
    simp only [ih, followWith, component, shapeOther same directory (by simp)]
  | case5 here piece rest name component bytes file last =>
    obtain ⟨other, found⟩ := shapeFile same file
    simp only [followWith, component, found, last, if_true]
  | case6 here piece rest name component bytes file more =>
    obtain ⟨other, found⟩ := shapeFile same file
    simp only [followWith, component, found, more, if_false, Bool.false_eq_true]
  | case7 here piece rest name component target link last =>
    simp only [followWith, component, shapeOther same link (by simp), last, if_true]
  | case8 here piece rest name component target link more empty =>
    simp only [followWith, component, shapeOther same link (by simp), if_neg more, if_pos empty]
  | case9 here piece rest name component target link more full spent =>
    simp only [followWith, component, shapeOther same link (by simp), if_neg more, if_neg full, spent]
  | case10 here piece rest name component target link more full next held =>
    simp only [followWith, component, shapeOther same link (by simp), if_neg more, if_neg full, held]
  | case11 here piece rest component notName up ih => simp only [ih, followWith, up]

theorem followSameShape {d e : Disk} (same : SameShape d e) (followLast : Bool) (links : Nat) :
    d.follow followLast links = e.follow followLast links := by
  induction links with
  | zero => exact funext fun here => funext (followWithSameShape same followLast none here)
  | succ links ih =>
    simp only [follow, ih]
    exact funext fun here => funext (followWithSameShape same followLast _ here)

theorem locateSameShape {d e : Disk} (same : SameShape d e) (p : Path) (followLast : Bool) :
    d.locate p followLast = e.locate p followLast := by
  unfold locate
  rw [followSameShape same]

inductive Thinned : List (List Char) → List (List Char) → Prop where
  | nil : Thinned [] []
  | keep (piece : List Char) {ps qs} (rest : Thinned ps qs) : Thinned (piece :: ps) (piece :: qs)
  | drop {piece : List Char} {ps qs} (filler : Component.ofPiece piece = none) (rest : Thinned ps qs) :
      Thinned (piece :: ps) qs

theorem thinnedAppend (front : List (List Char)) {ps qs : List (List Char)} (h : Thinned ps qs) :
    Thinned (front ++ ps) (front ++ qs) := by
  induction front with
  | nil => exact h
  | cons piece rest ih => exact .keep piece ih

theorem thinnedNamed (ps : List (List Char)) : Thinned ps (ps.filter fun piece => (Component.ofPiece piece).isSome) := by
  induction ps with
  | nil => exact .nil
  | cons piece rest ih =>
    rw [List.filter_cons]
    split
    · exact .keep piece ih
    · rename_i filler
      exact .drop (by simpa using filler) ih

-- A filler piece can only turn a way that ends at a file into an error, so leaving it out is safe.
theorem followWithThinned {d : Disk} {again : Option (Place → List (List Char) → Except OsError Place)}
    (safe : ∀ next ∈ again, ∀ {here place ps qs}, Thinned ps qs → next here ps = .ok place → next here qs = .ok place)
    {here place : Place} {ps qs : List (List Char)} (thin : Thinned ps qs)
    (ok : d.followWith true again here ps = .ok place) : d.followWith true again here qs = .ok place := by
  fun_induction d.followWith true again here ps generalizing qs with
  | case1 =>
    cases thin
    exact ok
  | case2 here piece rest filler ih =>
    cases thin with
    | keep _ thin =>
      simp only [followWith, filler]
      exact ih thin ok
    | drop _ thin => exact ih thin ok
  | case3 => cases ok
  | case4 here piece rest name component directory ih =>
    cases thin with
    | keep _ thin =>
      simp only [followWith, component, directory]
      exact ih thin ok
    | drop filler => simp [component] at filler
  | case5 here piece rest name component bytes file last =>
    cases List.isEmpty_iff.mp last
    cases thin with
    | keep _ thin =>
      cases thin
      simp only [followWith, component, file, last, if_true]
      exact ok
    | drop filler => simp [component] at filler
  | case6 => cases ok
  | case7 here piece rest name component target link last => simp at last
  | case8 => cases ok
  | case9 => cases ok
  | case10 here piece rest name component target link more full next held =>
    cases thin with
    | keep _ thin =>
      simp only [followWith, component, link, Bool.not_true, Bool.and_false, Bool.false_eq_true, if_false, if_neg full, held]
      exact safe next held (thinnedAppend _ thin) ok
    | drop filler => simp [component] at filler
  | case11 here piece rest component notName up ih =>
    cases thin with
    | keep _ thin =>
      simp only [followWith, up]
      exact ih thin ok
    | drop filler => simp [up] at filler

theorem followThinned {d : Disk} {links : Nat} {here place : Place} {ps qs : List (List Char)} (thin : Thinned ps qs)
    (ok : d.follow true links here ps = .ok place) : d.follow true links here qs = .ok place := by
  induction links generalizing here place ps qs with
  | zero => exact followWithThinned (by simp) thin ok
  | succ links ih =>
    refine followWithThinned (fun next held => ?_) thin ok
    cases held
    exact ih

theorem ofPieceText {piece : List Char} {c : Component} (h : Component.ofPiece piece = some c) :
    c.text.toList = piece ∧ c ≠ .root ∧ c ≠ .here := by
  unfold Component.ofPiece at h
  split at h
  · cases h
  · split at h
    · rename_i up
      cases h
      exact ⟨up.symm, by simp, by simp⟩
    · cases h
      exact ⟨String.toList_ofList, by simp, by simp⟩

theorem namedPieces (ps : List (List Char)) :
    ps.filter (fun piece => (Component.ofPiece piece).isSome) =
      (ps.filterMap Component.ofPiece).map fun c => c.text.toList := by
  induction ps with
  | nil => rfl
  | cons piece rest ih =>
    cases h : Component.ofPiece piece with
    | none => simp [h, ih]
    | some c => simp [h, ih, (ofPieceText h).1]

theorem componentsNamed (cs : List Char) :
    (Path.componentsOf cs).filter (fun c => c ≠ .root ∧ c ≠ .here) = (Path.pieces cs).filterMap Component.ofPiece := by
  have names : ((Path.pieces cs).filterMap Component.ofPiece).filter (fun c => c ≠ .root ∧ c ≠ .here) =
      (Path.pieces cs).filterMap Component.ofPiece := by
    refine List.filter_eq_self.mpr fun c mem => ?_
    obtain ⟨piece, _, h⟩ := List.mem_filterMap.mp mem
    simpa using (ofPieceText h).2
  simp only [Path.componentsOf]
  split
  · rw [List.filter_cons_of_neg (by simp), names]
  · split
    · rw [List.filter_cons_of_neg (by simp), names]
    · exact names

theorem locateSame {d : Disk} {p q : Path} {a b : Place} (same : p.same q = true) (left : d.locate p true = .ok a)
    (right : d.locate q true = .ok b) : a = b := by
  have components : p.components = q.components := by simpa [Path.same] using same
  have names : (Path.pieces p.text.toList).filterMap Component.ofPiece =
      (Path.pieces q.text.toList).filterMap Component.ofPiece := by
    rw [← componentsNamed, ← componentsNamed]
    exact congrArg _ components
  unfold locate at left right
  split at left <;> try contradiction
  split at right <;> try contradiction
  have leftNamed := followThinned (thinnedNamed _) left
  have rightNamed := followThinned (thinnedNamed _) right
  rw [namedPieces, names, ← namedPieces] at leftNamed
  exact Except.ok.inj (leftNamed.symm.trans rightNamed)

end KeepBlame.Disk
