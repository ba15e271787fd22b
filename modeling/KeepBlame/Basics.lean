/-! Facts about lists, options and results that several modules share. -/
namespace KeepBlame

theorem mapOk {ε α β : Type} {f : α → β} {x : Except ε α} {b : β} (ok : f <$> x = .ok b) : ∃ a, x = .ok a ∧ f a = b := by
  cases x with
  | error e => cases ok
  | ok a => exact ⟨a, rfl, Except.ok.inj ok⟩

theorem bindOk {ε α β : Type} {x : Except ε α} {f : α → Except ε β} {b : β} (ok : (x >>= f) = .ok b) :
    ∃ a, x = .ok a ∧ f a = .ok b := by
  cases x with
  | error e => cases ok
  | ok a => exact ⟨a, rfl, ok⟩

section MapM
variable {α β : Type} {f : α → Option β} {xs : List α} {ys : List β}

theorem mapMAt (all : xs.mapM f = some ys) (i : Nat) : ys[i]? = xs[i]?.bind f := by
  induction xs generalizing ys i with
  | nil =>
    cases all
    simp
  | cons x rest ih =>
    simp only [List.mapM_cons, bind, Option.bind_eq_some_iff] at all
    obtain ⟨first, here, others, found, whole⟩ := all
    cases whole
    cases i with
    | zero => simp [here]
    | succ i => simp [ih found]

theorem mapMember (all : xs.mapM f = some ys) {y : β} (mem : y ∈ ys) : ∃ x ∈ xs, f x = some y := by
  obtain ⟨i, there⟩ := List.mem_iff_getElem?.mp mem
  rw [mapMAt all] at there
  obtain ⟨x, here, made⟩ := Option.bind_eq_some_iff.mp there
  exact ⟨x, List.mem_of_getElem? here, made⟩

theorem mapMSome (every : ∀ x ∈ xs, ∃ y, f x = some y) : ∃ ys, xs.mapM f = some ys := by
  induction xs with
  | nil => exact ⟨[], rfl⟩
  | cons x rest ih =>
    obtain ⟨y, here⟩ := every x List.mem_cons_self
    obtain ⟨ys, found⟩ := ih fun z mem => every z (List.mem_cons_of_mem x mem)
    exact ⟨y :: ys, by simp [List.mapM_cons, here, found]⟩

end MapM

theorem headDrop {α : Type} (xs : List α) (n : Nat) (fallback : α) : (xs.drop n).headD fallback = xs.getD n fallback := by
  rw [List.headD_eq_head?_getD, List.head?_drop, List.getD_eq_getElem?_getD]

theorem prefixSplit {α : Type} {cut xs ys : List α} (part : cut <+: xs ++ ys) :
    cut <+: xs ∨ ∃ more, cut = xs ++ more ∧ more <+: ys := by
  rcases List.prefix_or_prefix_of_prefix part (List.prefix_append xs ys) with within | ⟨more, rfl⟩
  · exact .inl within
  · exact .inr ⟨more, rfl, (List.prefix_append_right_inj xs).mp part⟩

theorem countLt {α : Type} {p q : α → Bool} {xs : List α} {x : α} (mem : x ∈ xs) (left : p x = false)
    (right : q x = true) (implies : ∀ y ∈ xs, p y = true → q y = true) : xs.countP p < xs.countP q := by
  induction xs with
  | nil => cases mem
  | cons y ys ih =>
    have later : ∀ z ∈ ys, p z = true → q z = true := fun z held => implies z (List.mem_cons_of_mem y held)
    have most : ys.countP p ≤ ys.countP q := List.countP_mono_left later
    simp only [List.countP_cons]
    rcases List.mem_cons.mp mem with rfl | held
    · simp only [left, right, Bool.false_eq_true, if_false, if_true]
      omega
    · have less := ih held later
      by_cases here : p y = true
      · simp only [here, implies y List.mem_cons_self here, if_true]
        omega
      · simp only [here, Bool.false_eq_true, if_false]
        omega

end KeepBlame
