import KeepBlame.Proofs.Keys
import KeepBlame.Proofs.Splice
import Mathlib.Algebra.Order.BigOperators.Group.List
import Mathlib.Algebra.Order.Ring.Int

/-! One-pass application. Edits that stand in order between two positions of a file can be cut in two at any position
between them; what comes out up to that position is as long as the position and the deltas before it say. -/
namespace KeepBlame

def between (bytes : Bytes) (a b : Nat) : Bytes := (bytes.drop a).take (b - a)

theorem betweenAppend {bytes : Bytes} {a b c : Nat} (ab : a ≤ b) (bc : b ≤ c) :
    between bytes a b ++ between bytes b c = between bytes a c := by
  have cut : bytes.drop b = (bytes.drop a).drop (b - a) := by
    rw [List.drop_drop]
    congr 1
    omega
  have whole : c - a = (b - a) + (c - b) := by omega
  simp only [between, cut, whole, List.take_add]

theorem betweenDrop {bytes : Bytes} {a b : Nat} (ab : a ≤ b) :
    between bytes a b ++ bytes.drop b = bytes.drop a := by
  have cut : bytes.drop b = (bytes.drop a).drop (b - a) := by
    rw [List.drop_drop]
    congr 1
    omega
  rw [cut, between, List.take_append_drop]

theorem betweenLength {bytes : Bytes} {a b : Nat} (inside : b ≤ bytes.length) :
    (between bytes a b).length = b - a := by
  simp only [between, List.length_take, List.length_drop]
  omega

theorem takeBetween {bytes : Bytes} {a c n : Nat} (inside : a + n ≤ c) :
    (between bytes a c).take n = between bytes a (a + n) := by
  simp only [between, List.take_take]
  congr 1
  omega

theorem dropBetween {bytes : Bytes} {a c n : Nat} : (between bytes a c).drop n = between bytes (a + n) c := by
  simp only [between, List.drop_take, List.drop_drop]
  congr 1
  omega

theorem betweenSelf (bytes : Bytes) (a : Nat) : between bytes a a = [] := by
  simp [between]

namespace Edit

def InOrder (cursor : Nat) : List Edit → Nat → Prop
  | [], stop => cursor ≤ stop
  | e :: rest, stop => cursor ≤ e.span.start ∧ InOrder e.span.stop rest stop

theorem inOrderLe {cursor stop : Nat} {edits : List Edit} (h : InOrder cursor edits stop) : cursor ≤ stop := by
  induction edits generalizing cursor with
  | nil => exact h
  | cons e rest ih =>
    have := ih h.2
    have := e.span.startLeStop
    have := h.1
    omega

theorem inOrderWiden {a b c d : Nat} {edits : List Edit} (ab : a ≤ b) (cd : c ≤ d) (h : InOrder b edits c) :
    InOrder a edits d := by
  induction edits generalizing a b with
  | nil => exact Nat.le_trans ab (Nat.le_trans h cd)
  | cons e rest ih => exact ⟨Nat.le_trans ab h.1, ih (Nat.le_refl _) h.2⟩

theorem inOrderAppend {a c : Nat} {xs ys : List Edit} :
    InOrder a (xs ++ ys) c ↔ ∃ b, InOrder a xs b ∧ InOrder b ys c := by
  induction xs generalizing a with
  | nil =>
    constructor
    · intro h
      exact ⟨a, Nat.le_refl a, h⟩
    · rintro ⟨b, ab, h⟩
      exact inOrderWiden ab (Nat.le_refl c) h
  | cons e rest ih =>
    constructor
    · rintro ⟨start, h⟩
      obtain ⟨b, left, right⟩ := ih.mp h
      exact ⟨b, ⟨start, left⟩, right⟩
    · rintro ⟨b, ⟨start, left⟩, right⟩
      exact ⟨start, ih.mpr ⟨b, left, right⟩⟩

theorem inOrderCut {a c : Nat} {xs ys : List Edit} {e : Edit} (h : InOrder a (xs ++ e :: ys) c) :
    InOrder a xs e.span.start ∧ InOrder e.span.stop ys c := by
  obtain ⟨b, left, start, right⟩ := inOrderAppend.mp h
  exact ⟨inOrderWiden (Nat.le_refl a) start left, right⟩

theorem inOrderSublist {a b : Nat} {xs ys : List Edit} (part : xs.Sublist ys) (h : InOrder a ys b) :
    InOrder a xs b := by
  induction part generalizing a with
  | slnil => exact h
  | cons e _ ih => exact inOrderWiden (Nat.le_trans h.1 e.span.startLeStop) (Nat.le_refl b) (ih h.2)
  | cons_cons e _ ih => exact ⟨h.1, ih h.2⟩

theorem inOrderStop {a b : Nat} {edits : List Edit} (h : InOrder a edits b) {e : Edit} (mem : e ∈ edits) :
    a ≤ e.span.start ∧ e.span.stop ≤ b := by
  obtain ⟨xs, ys, rfl⟩ := List.append_of_mem mem
  have cut := inOrderCut h
  exact ⟨inOrderLe cut.1, inOrderLe cut.2⟩

def upTo (cursor stop : Nat) (pristine : Bytes) : List Edit → Bytes
  | [] => between pristine cursor stop
  | e :: rest => between pristine cursor e.span.start ++ e.content ++ upTo e.span.stop stop pristine rest

theorem onePassGap {pristine : Bytes} {a b c : Nat} {edits : List Edit} (ab : a ≤ b) (h : InOrder b edits c) :
    onePassFrom a pristine edits = between pristine a b ++ onePassFrom b pristine edits := by
  cases edits with
  | nil => exact (betweenDrop ab).symm
  | cons e rest =>
    change between pristine a e.span.start ++ e.content ++ _ =
      between pristine a b ++ (between pristine b e.span.start ++ e.content ++ _)
    rw [← betweenAppend ab h.1]
    simp only [List.append_assoc]

theorem onePassSplit {pristine : Bytes} {a b c : Nat} {xs ys : List Edit}
    (left : InOrder a xs b) (right : InOrder b ys c) :
    onePassFrom a pristine (xs ++ ys) = upTo a b pristine xs ++ onePassFrom b pristine ys := by
  induction xs generalizing a with
  | nil => exact onePassGap left right
  | cons e rest ih =>
    change between pristine a e.span.start ++ e.content ++ onePassFrom e.span.stop pristine (rest ++ ys) = _
    rw [ih left.2]
    simp only [upTo, List.append_assoc]

theorem onePassCons {pristine : Bytes} {e : Edit} {ys : List Edit} :
    onePassFrom e.span.start pristine (e :: ys) = e.content ++ onePassFrom e.span.stop pristine ys := by
  change between pristine e.span.start e.span.start ++ e.content ++ _ = _
  rw [betweenSelf, List.nil_append]

def contentSize (edits : List Edit) : Nat := (edits.map fun e => e.content.length).sum

def deltaSum (edits : List Edit) : Int := (edits.map delta).sum

theorem deltaSumLe (edits : List Edit) : deltaSum edits ≤ contentSize edits := by
  induction edits with
  | nil => exact Int.le_refl 0
  | cons e rest ih =>
    simp only [deltaSum, contentSize, List.map_cons, List.sum_cons, delta] at ih ⊢
    omega

theorem deltaExact {e : Edit} (stop : e.span.stop ≤ sizeLimit) (content : e.content.length ≤ sizeLimit) :
    e.span.stop = e.span.start + e.span.size ∧ e.delta = e.content.length - e.span.size := by
  simp only [delta, Span.stop, Span.limit, sizeLimit] at *
  omega

theorem upToLength {pristine : Bytes} {a b : Nat} {edits : List Edit} (h : InOrder a edits b)
    (inside : b ≤ pristine.length) (room : pristine.length + contentSize edits ≤ sizeLimit) :
    ((upTo a b pristine edits).length : Int) = b - a + deltaSum edits := by
  induction edits generalizing a with
  | nil =>
    have ab : a ≤ b := h
    simp only [upTo, betweenLength inside, deltaSum, List.map_nil, List.sum_nil]
    omega
  | cons e rest ih =>
    have start := h.1
    have stop := inOrderLe h.2
    have order := e.span.startLeStop
    simp only [contentSize, List.map_cons, List.sum_cons] at room
    have exact := deltaExact (e := e) (by omega) (by omega)
    have tail := ih h.2 (by simp only [contentSize]; omega)
    simp only [upTo, List.length_append, betweenLength (show e.span.start ≤ pristine.length by omega), deltaSum,
      List.map_cons, List.sum_cons] at tail ⊢
    omega

end Edit
end KeepBlame
