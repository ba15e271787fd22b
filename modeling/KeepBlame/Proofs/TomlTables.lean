import KeepBlame.Proofs.TomlText

/-! Tables of a TOML document as its statements build them. No statement takes a name away or closes a table that has its
own header; a document of headers and plain keys, each once, gives just its tables with their keys. -/
namespace KeepBlame.Toml

namespace Entries

theorem findMem {es : Entries} {name : String} {v : Located Value} (found : find? es name = some v) :
    ∃ key, (key, v) ∈ es ∧ key.name = name := by
  obtain ⟨e, here, rfl⟩ := Option.map_eq_some_iff.mp found
  exact ⟨e.1, List.mem_of_find?_eq_some here, by simpa using List.find?_some here⟩

theorem findAppend (es more : Entries) (name : String) :
    find? (es ++ more) name = (find? es name).or (find? more name) := by
  simp only [find?, List.find?_append]
  cases List.find? (fun e => e.1.name == name) es <;> rfl

theorem findNone {es : Entries} {name : String} (absent : find? es name = none) : ∀ e ∈ es, e.1.name ≠ name := by
  intro e mem
  simpa using List.find?_eq_none.mp (Option.map_eq_none_iff.mp absent) e mem

theorem findAbsent {es : Entries} {name : String} (absent : ∀ e ∈ es, e.1.name ≠ name) : find? es name = none :=
  Option.map_eq_none_iff.mpr (List.find?_eq_none.mpr fun e mem => by simpa using absent e mem)

theorem findCons (e : Key × Located Value) (es : Entries) (name : String) :
    find? (e :: es) name = if e.1.name = name then some e.2 else find? es name := by
  by_cases same : e.1.name = name <;> simp [find?, same]

theorem findMap (es : Entries) (key : Key) (v : Located Value) (name : String) :
    find? (es.map fun e => if e.1.name == key.name then (e.1, v) else e) name =
      if name = key.name then (find? es name).map fun _ => v else find? es name := by
  induction es with
  | nil => simp [find?]
  | cons e rest ih =>
    rw [List.map_cons, findCons, findCons, ih]
    by_cases here : e.1.name = key.name
    · by_cases same : name = key.name
      · simp [here, same]
      · simp [here, same, Ne.symm same]
    · by_cases same : name = key.name
      · simp [here, same]
      · simp [here, same]

theorem findSet (es : Entries) (key : Key) (v : Located Value) (name : String) :
    find? (set es key v) name = if name = key.name then some v else find? es name := by
  unfold set
  split
  · rename_i known
    rw [findMap]
    by_cases same : name = key.name
    · obtain ⟨e, mem, named⟩ := List.any_eq_true.mp known
      have held : (find? es key.name).isSome = true := by
        cases found : find? es key.name with
        | some old => rfl
        | none => exact absurd (beq_iff_eq.mp named) (findNone found e mem)
      obtain ⟨old, found⟩ := Option.isSome_iff_exists.mp held
      simp [same, found]
    · simp [same]
  · rename_i unknown
    have absent : find? es key.name = none := findAbsent fun e mem named =>
      unknown (List.any_eq_true.mpr ⟨e, mem, beq_iff_eq.mpr named⟩)
    rw [findAppend, findCons]
    by_cases same : name = key.name
    · simp [same, absent]
    · simp [same, Ne.symm same, find?]

theorem findErase {es : Entries} {gone name : String} (other : name ≠ gone) :
    find? (erase es gone) name = find? es name := by
  induction es with
  | nil => rfl
  | cons e rest ih =>
    by_cases same : e.1.name = gone
    · simp only [erase, same, bne_self_eq_false, Bool.false_eq_true, not_false_eq_true, List.filter_cons_of_neg]
      rw [findCons, if_neg (same ▸ Ne.symm other)]
      exact ih
    · have kept : (e.1.name != gone) = true := bne_iff_ne.mpr same
      simp only [erase, kept, List.filter_cons_of_pos, findCons]
      rw [show find? (rest.filter fun e => e.1.name != gone) name = find? rest name from ih]

def Names (es later : Entries) : Prop := ∀ name, (find? es name).isSome = true → (find? later name).isSome = true

/-- No name is lost, nor a table with a header of its own or a name in it. -/
structure Grows (es later : Entries) : Prop where
  names : Names es later
  headed : ∀ title line inner, find? es title = some ⟨line, .table .headed inner⟩ →
    ∃ more, find? later title = some ⟨line, .table .headed more⟩ ∧ Names inner more

theorem growsRefl (es : Entries) : Grows es es :=
  ⟨fun _ held => held, fun _ _ inner found => ⟨inner, found, fun _ held => held⟩⟩

theorem growsTrans {a b c : Entries} (first : Grows a b) (second : Grows b c) : Grows a c := by
  refine ⟨fun name held => second.names name (first.names name held), ?_⟩
  intro title line inner found
  obtain ⟨more, now, names⟩ := first.headed title line inner found
  obtain ⟨most, last, others⟩ := second.headed title line more now
  exact ⟨most, last, fun name held => others name (names name held)⟩

theorem growsOfFind {es later : Entries} (stays : ∀ name v, find? es name = some v → find? later name = some v) :
    Grows es later := by
  refine ⟨?_, fun title line inner found => ⟨inner, stays title _ found, fun _ held => held⟩⟩
  intro name held
  obtain ⟨v, found⟩ := Option.isSome_iff_exists.mp held
  rw [stays name v found]
  rfl

theorem growsAppend (es more : Entries) : Grows es (es ++ more) :=
  growsOfFind fun name v found => by rw [findAppend, found, Option.some_or]

theorem growsSet {es : Entries} {key : Key} {v : Located Value}
    (same : ∀ line inner, find? es key.name = some ⟨line, .table .headed inner⟩ →
      ∃ more, v = ⟨line, .table .headed more⟩ ∧ Names inner more) : Grows es (set es key v) := by
  constructor
  · intro name held
    rw [findSet]
    split
    · rfl
    · exact held
  · intro title line inner found
    rw [findSet]
    split
    · rename_i here
      obtain ⟨more, rfl, names⟩ := same line inner (here ▸ found)
      exact ⟨more, rfl, names⟩
    · exact ⟨inner, found, fun _ held => held⟩

section Alter
variable {made : TableKind} {enter : TableKind → Bool} {change : TableKind → Entries → Option Entries}
  (grows : ∀ kind es later, change kind es = some later → Grows es later)
include grows

theorem alterAtGrows {kind : TableKind} {es later : Entries} {path : List Key}
    (ok : alterAt made enter change kind es path = some later) : Grows es later := by
  induction path generalizing kind es later with
  | nil => exact grows kind es later ok
  | cons key path ih =>
    unfold alterAt at ok
    split at ok
    · rename_i absent
      obtain ⟨inner, _, same⟩ := Option.bind_eq_some_iff.mp ok
      cases same
      exact growsSet fun line inner found => by simp [absent] at found
    · rename_i line kind inner found
      split at ok
      · obtain ⟨more, went, same⟩ := Option.bind_eq_some_iff.mp ok
        cases same
        refine growsSet fun place old held => ?_
        rw [found] at held
        cases held
        exact ⟨more, rfl, (ih went).names⟩
      · cases ok
    · rename_i line items found
      split at ok
      · cases ok
      · obtain ⟨inner, _, same⟩ := Option.bind_eq_some_iff.mp ok
        cases same
        exact growsSet fun place old held => by simp [found] at held
    · cases ok

end Alter

theorem alterAtFirst {made : TableKind} {enter : TableKind → Bool} {change : TableKind → Entries → Option Entries}
    {kind : TableKind} {es later : Entries} {key : Key} {path : List Key}
    (ok : alterAt made enter change kind es (key :: path) = some later) : (find? later key.name).isSome = true := by
  have done (v : Located Value) : (find? (set es key v) key.name).isSome = true := by simp [findSet]
  unfold alterAt at ok
  split at ok
  · obtain ⟨inner, _, same⟩ := Option.bind_eq_some_iff.mp ok
    cases same
    exact done _
  · split at ok
    · obtain ⟨inner, _, same⟩ := Option.bind_eq_some_iff.mp ok
      cases same
      exact done _
    · cases ok
  · split at ok
    · cases ok
    · obtain ⟨inner, _, same⟩ := Option.bind_eq_some_iff.mp ok
      cases same
      exact done _
  · cases ok

theorem addPairGrows {es later : Entries} {path : List Key} {key : Key} {v : Located Value}
    (ok : addPair es path key v = some later) : Grows es later := by
  refine alterAtGrows (fun kind inner more => ?_) ok
  intro added
  split at added
  · cases added
  · cases added
    exact growsAppend _ _

theorem addPairNamed {es later : Entries} {path : List Key} {key : Key} {v : Located Value}
    (ok : addPair es path key v = some later) : (find? later (path.head?.getD key).name).isSome = true := by
  cases path with
  | nil =>
    simp only [addPair, alterAt] at ok
    split at ok
    · cases ok
    · cases ok
      simp [findAppend, findCons]
  | cons first path =>
    unfold addPair at ok
    exact alterAtFirst ok

theorem underHeadersFirst {es later : Entries} {path : List Key} {key : Key} {change : Entries → Option Entries}
    (here : ∀ inner more, change inner = some more → (find? more key.name).isSome = true)
    (ok : underHeaders es path change = some later) : (find? later (path.head?.getD key).name).isSome = true := by
  cases path with
  | nil => exact here es later ok
  | cons first path =>
    unfold underHeaders at ok
    exact alterAtFirst ok

section Table
variable {es later : Entries} {path : List Key} {key : Key}

theorem addTableGrows (ok : addTable es path key = some later) : Grows es later := by
  refine alterAtGrows (fun kind inner more => ?_) ok
  intro added
  dsimp only at added
  split at added
  · cases added
    exact growsAppend _ _
  · rename_i line old found
    cases added
    refine ⟨?_, ?_⟩
    · intro name held
      rw [findAppend]
      by_cases same : name = key.name
      · simp [findCons, same]
      · rw [findErase same, Option.isSome_or, held, Bool.true_or]
    · -- The table that moves was only implied, so it is none of those with a header.
      intro title place inside held
      have other : title ≠ key.name := by
        rintro rfl
        simp [found] at held
      exact ⟨inside, by rw [findAppend, findErase other, held, Option.some_or], fun _ mem => mem⟩
  · cases added

theorem addTableNamed (ok : addTable es path key = some later) :
    (find? later (path.head?.getD key).name).isSome = true := by
  refine underHeadersFirst (fun inner more added => ?_) ok
  split at added
  · cases added
    simp [findAppend, findCons]
  · cases added
    simp [findAppend, findCons]
  · cases added

theorem addTableHeaded (ok : addTable es [] key = some later) :
    ∃ line inner, find? later key.name = some ⟨line, .table .headed inner⟩ := by
  simp only [addTable, underHeaders, alterAt] at ok
  split at ok
  · rename_i absent
    cases ok
    exact ⟨key.line, [], by rw [findAppend, absent, Option.none_or, findCons, if_pos rfl]⟩
  · rename_i line old found
    cases ok
    have gone : find? (erase es key.name) key.name = none := findAbsent fun e mem => by
      simpa [erase] using (List.mem_filter.mp mem).2
    exact ⟨key.line, old, by rw [findAppend, gone, Option.none_or, findCons, if_pos rfl]⟩
  · cases ok

theorem addTableTwice {line : Nat} {inner : Entries} (held : find? es key.name = some ⟨line, .table .headed inner⟩) :
    addTable es [] key = none := by
  simp only [addTable, underHeaders, alterAt, held]

theorem addRepeatedGrows (ok : addRepeated es path key = some later) : Grows es later := by
  refine alterAtGrows (fun kind inner more => ?_) ok
  intro added
  dsimp only at added
  split at added
  · cases added
    exact growsAppend _ _
  · rename_i line items found
    cases added
    exact growsSet fun place old held => by simp [found] at held
  · cases added

theorem addRepeatedNamed (ok : addRepeated es path key = some later) :
    (find? later (path.head?.getD key).name).isSome = true := by
  refine underHeadersFirst (fun inner more added => ?_) ok
  split at added
  · cases added
    simp [findAppend, findCons]
  · cases added
    simp [findSet]
  · cases added

end Table

theorem underHeaderInner {es later : Entries} {title : Key} {change : Entries → Option Entries} {line : Nat}
    {inner : Entries} (held : find? es title.name = some ⟨line, .table .headed inner⟩)
    (ok : underHeaders es [title] change = some later) :
    ∃ more, change inner = some more ∧ later = set es title ⟨line, .table .headed more⟩ := by
  simp only [underHeaders, alterAt, held] at ok
  rw [if_pos (by decide)] at ok
  obtain ⟨more, changed, same⟩ := Option.bind_eq_some_iff.mp ok
  exact ⟨more, changed, (Option.some.inj same).symm⟩

end Entries

open Entries (find? Grows)

theorem addGrows {p next : Progress} {s : Statement} (ok : p.add s = some next) : Grows p.entries next.entries := by
  cases s with
  | header repeated path key =>
    cases repeated with
    | false =>
      obtain ⟨es, added, same⟩ := Option.bind_eq_some_iff.mp ok
      cases same
      exact Entries.addTableGrows added
    | true =>
      obtain ⟨es, added, same⟩ := Option.bind_eq_some_iff.mp ok
      cases same
      exact Entries.addRepeatedGrows added
  | pair path key v =>
    obtain ⟨es, added, same⟩ := Option.bind_eq_some_iff.mp ok
    cases same
    exact Entries.alterAtGrows (fun _ _ _ => Entries.addPairGrows) added

theorem buildAppend (p : Progress) (early late : List Statement) :
    build p (early ++ late) = (build p early).bind (build · late) := by
  induction early generalizing p with
  | nil => rfl
  | cons s rest ih =>
    simp only [List.cons_append, build]
    cases p.add s with
    | none => rfl
    | some next => exact ih next

theorem buildGrows {p last : Progress} {statements : List Statement} (ok : build p statements = .ok last) :
    Grows p.entries last.entries := by
  induction statements generalizing p with
  | nil =>
    cases ok
    exact Entries.growsRefl _
  | cons s rest ih =>
    simp only [build] at ok
    split at ok
    · rename_i next added
      exact Entries.growsTrans (addGrows added) (ih ok)
    · cases ok

def Line.title? : Line → Option String
  | table title => some title
  | field _ _ => none

structure Standing (titles : List String) (p : Progress) : Prop where
  current : p.current.map Key.name = titles.getLast?.toList
  headed : ∀ title ∈ titles, ∃ line inner, find? p.entries title = some ⟨line, .table .headed inner⟩

theorem standingStep {titles : List String} {p next : Progress} {l : Line} {s : Statement} (standing : Standing titles p)
    (reads : Reads l s) (ok : p.add s = some next) : Standing (titles ++ l.title?.toList) next := by
  have grows := addGrows ok
  have kept : ∀ title ∈ titles, ∃ line inner, find? next.entries title = some ⟨line, .table .headed inner⟩ := by
    intro title mem
    obtain ⟨line, inner, found⟩ := standing.headed title mem
    obtain ⟨more, now, _⟩ := grows.headed title line inner found
    exact ⟨line, more, now⟩
  cases reads with
  | table title line =>
    obtain ⟨es, added, same⟩ := Option.bind_eq_some_iff.mp ok
    cases same
    refine ⟨by simp [Line.title?], ?_⟩
    intro other mem
    rcases List.mem_append.mp mem with early | last
    · exact kept other early
    · cases List.mem_singleton.mp last
      exact Entries.addTableHeaded added
  | field line place holds =>
    obtain ⟨es, added, same⟩ := Option.bind_eq_some_iff.mp ok
    cases same
    rw [show titles ++ (Line.field _ _).title?.toList = titles from List.append_nil titles]
    exact ⟨standing.current, kept⟩

theorem buildStanding {titles : List String} {p last : Progress} {lines : List Line} {statements : List Statement}
    (standing : Standing titles p) (reads : List.Forall₂ Reads lines statements) (ok : build p statements = .ok last) :
    Standing (titles ++ lines.filterMap Line.title?) last := by
  induction reads generalizing p titles with
  | nil =>
    cases ok
    simpa using standing
  | @cons l s lines statements here later ih =>
    simp only [build] at ok
    split at ok
    · rename_i next added
      have whole := ih (standingStep standing here added) ok
      rw [List.append_assoc] at whole
      cases title : l.title? <;> simpa [title] using whole
    · cases ok

abbrev Section := String × List (String × Datum)

def Section.lines (s : Section) : List Line := .table s.1 :: s.2.map fun f => .field f.1 f.2

def Filled (f : String × Datum) (e : Key × Located Value) : Prop := e.1.name = f.1 ∧ Holds f.2 e.2.value

def Tabled (s : Section) (e : Key × Located Value) : Prop :=
  e.1.name = s.1 ∧ ∃ line inner, e.2 = ⟨line, .table .headed inner⟩ ∧ List.Forall₂ Filled s.2 inner

theorem filledNames {fields : List (String × Datum)} {es : Entries} (filled : List.Forall₂ Filled fields es) :
    es.map (·.1.name) = fields.map Prod.fst := by
  induction filled with
  | nil => rfl
  | cons here later ih => simp [here.1, ih]

theorem absentOf {es : Entries} {names : List String} (same : es.map (·.1.name) = names) {name : String}
    (absent : name ∉ names) : find? es name = none :=
  Entries.findAbsent fun _ mem named => absent (same ▸ named ▸ List.mem_map_of_mem mem)

section Building
variable {early : Entries} {key : Key} (first : find? early key.name = none)
include first

theorem setLast (old v : Located Value) : Entries.set (early ++ [(key, old)]) key v = early ++ [(key, v)] := by
  have known : ((early ++ [(key, old)]).any fun e => e.1.name == key.name) = true := by simp
  have others : (early.map fun e => if e.1.name == key.name then (e.1, v) else e) = early := by
    refine (List.map_congr_left fun e mem => ?_).trans (List.map_id early)
    exact if_neg (by simpa using Entries.findNone first e mem)
  rw [Entries.set, if_pos known, List.map_append, others]
  simp

theorem addField {line : Nat} {inner : Entries} {k : Key} {v : Located Value} (absent : find? inner k.name = none) :
    Progress.add ⟨early ++ [(key, ⟨line, .table .headed inner⟩)], [key]⟩ (.pair [] k v) =
      some ⟨early ++ [(key, ⟨line, .table .headed (inner ++ [(k, v)])⟩)], [key]⟩ := by
  have held : find? (early ++ [(key, ⟨line, .table .headed inner⟩)]) key.name = some ⟨line, .table .headed inner⟩ := by
    rw [Entries.findAppend, first, Option.none_or, Entries.findCons, if_pos rfl]
  have added : Entries.addPair inner [] k v = some (inner ++ [(k, v)]) := by
    simp [Entries.addPair, Entries.alterAt, absent]
  have under : Entries.underHeaders (early ++ [(key, ⟨line, .table .headed inner⟩)]) [key] (·.addPair [] k v) =
      some (early ++ [(key, ⟨line, .table .headed (inner ++ [(k, v)])⟩)]) := by
    simp only [Entries.underHeaders, Entries.alterAt, held, added]
    rw [if_pos (by decide)]
    exact congrArg some (setLast first _ _)
  simp only [Progress.add, under, bind, Option.bind]

theorem buildFields {line : Nat} {inner : Entries} {before fields : List (String × Datum)} {statements : List Statement}
    (filled : List.Forall₂ Filled before inner) (once : ((before ++ fields).map Prod.fst).Nodup)
    (reads : List.Forall₂ Reads (fields.map fun f => .field f.1 f.2) statements) :
    ∃ whole, List.Forall₂ Filled (before ++ fields) whole ∧
      build ⟨early ++ [(key, ⟨line, .table .headed inner⟩)], [key]⟩ statements =
        .ok ⟨early ++ [(key, ⟨line, .table .headed whole⟩)], [key]⟩ := by
  induction fields generalizing before inner statements with
  | nil =>
    cases reads
    exact ⟨inner, by simpa using filled, rfl⟩
  | cons f rest ih =>
    obtain ⟨name, d⟩ := f
    cases reads with
    | cons here later =>
      cases here with
      | @field _ _ v number place holds =>
        have absent : find? inner name = none := absentOf (filledNames filled) (by
          rw [List.map_append, List.nodup_append] at once
          intro mem
          exact once.2.2 name mem name List.mem_cons_self rfl)
        have longer : List.Forall₂ Filled (before ++ [(name, d)]) (inner ++ [(⟨name, number⟩, ⟨place, v⟩)]) :=
          List.rel_append filled (.cons ⟨rfl, holds⟩ .nil)
        obtain ⟨whole, all, built⟩ := ih longer (by simpa using once) later
        refine ⟨whole, by simpa using all, ?_⟩
        rw [build, addField first (k := ⟨name, number⟩) absent]
        exact built

end Building

theorem buildSections {sections : List Section} {early : Entries} {current : List Key} {statements : List Statement}
    (apart : ∀ s ∈ sections, find? early s.1 = none) (titles : (sections.map Prod.fst).Nodup)
    (once : ∀ s ∈ sections, (s.2.map Prod.fst).Nodup)
    (reads : List.Forall₂ Reads (sections.flatMap Section.lines) statements) :
    ∃ tables last, List.Forall₂ Tabled sections tables ∧
      build ⟨early, current⟩ statements = .ok ⟨early ++ tables, last⟩ := by
  induction sections generalizing early current statements with
  | nil =>
    cases reads
    exact ⟨[], current, .nil, by simp [build]⟩
  | cons s rest ih =>
    obtain ⟨title, fields⟩ := s
    have here := List.forall₂_take (Section.lines (title, fields)).length reads
    have later := List.forall₂_drop (Section.lines (title, fields)).length reads
    rw [List.flatMap_cons, List.take_left] at here
    rw [List.flatMap_cons, List.drop_left] at later
    have split := List.take_append_drop (Section.lines (title, fields)).length statements
    generalize statements.take (Section.lines (title, fields)).length = these at here split
    generalize statements.drop (Section.lines (title, fields)).length = those at later split
    subst split
    obtain ⟨alone, titles⟩ := List.nodup_cons.mp titles
    have absent : find? early title = none := apart _ List.mem_cons_self
    cases here with
    | @cons _ header _ body opened inside =>
      cases opened with
      | table _ line =>
        have added : Progress.add ⟨early, current⟩ (.header false [] ⟨title, line⟩) =
            some ⟨early ++ [(⟨title, line⟩, ⟨line, .table .headed []⟩)], [⟨title, line⟩]⟩ := by
          simp [Progress.add, Entries.addTable, Entries.underHeaders, Entries.alterAt, absent]
        obtain ⟨whole, filled, built⟩ := @buildFields early ⟨title, line⟩ absent line [] [] fields body .nil
          (once _ List.mem_cons_self) inside
        have others : ∀ s ∈ rest, find? (early ++ [(⟨title, line⟩, ⟨line, .table .headed whole⟩)]) s.1 = none := by
          intro s mem
          have other : title ≠ s.1 := fun same => alone (List.mem_map.mpr ⟨s, mem, same.symm⟩)
          rw [Entries.findAppend, apart s (List.mem_cons_of_mem _ mem), Option.none_or, Entries.findCons, if_neg other]
          rfl
        obtain ⟨tables, last, tabled, finished⟩ :=
          @ih _ [⟨title, line⟩] those others titles (fun s mem => once s (List.mem_cons_of_mem _ mem)) later
        refine ⟨(⟨title, line⟩, ⟨line, .table .headed whole⟩) :: tables, last,
          .cons ⟨rfl, line, whole, rfl, filled⟩ tabled, ?_⟩
        rw [buildAppend, build, added]
        dsimp only
        rw [built]
        exact finished.trans (by rw [List.append_assoc]; rfl)

theorem readSections {sections : List Section} {text : List Char} (titles : (sections.map Prod.fst).Nodup)
    (once : ∀ s ∈ sections, (s.2.map Prod.fst).Nodup)
    (written : DocumentWritten (sections.flatMap Section.lines) text) :
    ∃ tables, List.Forall₂ Tabled sections tables ∧ read text = .ok tables := by
  obtain ⟨statements, reads, read⟩ := readDocumentWritten (text.count '\n') written (Nat.lt_succ_self text.length)
  obtain ⟨tables, last, tabled, built⟩ :=
    @buildSections sections [] [] statements (fun _ _ => rfl) titles once reads
  refine ⟨tables, tabled, ?_⟩
  simp only [Toml.read, if_neg (documentUnmarked written), read, built, bind, Except.bind, List.nil_append]

theorem readOk {text : List Char} {es : Entries} (unmarked : text.head? ≠ some byteOrderMark) (ok : read text = .ok es) :
    ∃ statements p, readStatements (text.count '\n') text (text.length + 1) = (statements, none) ∧
      build {} statements = .ok p ∧ p.entries = es := by
  simp only [read, if_neg unmarked] at ok
  cases all : readStatements (text.count '\n') text (text.length + 1) with
  | mk statements mistake =>
    cases built : build {} statements with
    | error line =>
      simp only [all, built, bind, Except.bind] at ok
      cases ok
    | ok p =>
      simp only [all, built, bind, Except.bind] at ok
      cases mistake with
      | none => exact ⟨statements, p, rfl, built, Except.ok.inj ok⟩
      | some place => cases ok

theorem readNext {lines : List Line} {before after : List Char} {c : Char} {more : List Char} {es : Entries}
    (written : LinesWritten lines before) (first : after = c :: more) (starts : Starts c) (mark : c ≠ byteOrderMark)
    (ok : read (before ++ after) = .ok es) :
    ∃ total statement rest p next, readStatement total after = .ok (statement, rest) ∧
      Standing (lines.filterMap Line.title?) p ∧ p.add statement = some next ∧ Grows next.entries es := by
  subst first
  have unmarked : (before ++ c :: more).head? ≠ some byteOrderMark :=
    linesUnmarked written fun head => mark (Option.some.inj head)
  obtain ⟨all, final, read, built, rfl⟩ := readOk unmarked ok
  generalize (before ++ c :: more).count '\n' = total at read
  have enough : before.length < (before ++ c :: more).length + 1 := by
    rw [List.length_append]
    omega
  obtain ⟨statements, left, reads, split⟩ := readStatementsWritten total written (c :: more) enough
  rw [read] at split
  cases here : readStatement total (c :: more) with
  | error place =>
    simp only [readStatements, skipNothing starts, here] at split
    cases (Prod.mk.inj split).2
  | ok r =>
    obtain ⟨statement, rest⟩ := r
    rw [readStatementsNext total starts here] at split
    obtain ⟨rfl, _⟩ := Prod.mk.inj split
    rw [buildAppend] at built
    cases early : build {} statements with
    | error line =>
      rw [early] at built
      cases built
    | ok p =>
      simp only [early, Except.bind, build] at built
      split at built
      · rename_i next added
        have standing := @buildStanding [] {} p lines statements ⟨rfl, by simp⟩ reads early
        exact ⟨total, statement, rest, p, next, here, standing, added, buildGrows built⟩
      · cases built

end KeepBlame.Toml
