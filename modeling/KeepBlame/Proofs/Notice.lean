import KeepBlame.Notice

/-! What becomes of edits when a banner goes to the start of the file: each stays, but for one that takes the banner in
front of its content or an insertion that is new. -/
namespace KeepBlame.Notice

theorem injectMem {content banner : Bytes} {edits : List Edit} {e : Edit} (mem : e ∈ inject content banner edits) :
    e ∈ edits ∨ banner ≠ [] ∧
      ((∃ first ∈ edits, e = { first with content := banner ++ first.content }) ∨ e = ⟨⟨0, 0⟩, banner⟩) := by
  unfold inject at mem
  split at mem
  · exact .inl mem
  · rename_i absent
    have real : banner ≠ [] := by
      rintro rfl
      exact absent rfl
    dsimp only at mem
    split at mem
    · rename_i first after split
      have listed : first ∈ edits := List.mem_of_mem_drop (split ▸ List.mem_cons_self)
      rcases List.mem_append.mp mem with early | late
      · exact .inl ((List.takeWhile_sublist _).subset early)
      · rcases List.mem_cons.mp late with rfl | late
        · exact .inr ⟨real, .inl ⟨first, listed, rfl⟩⟩
        · exact .inl (List.mem_of_mem_drop (split ▸ List.mem_cons_of_mem first late))
    · rcases List.mem_cons.mp mem with rfl | old
      · exact .inr ⟨real, .inr rfl⟩
      · exact .inl old

theorem injectInside {content banner : Bytes} {edits : List Edit}
    (inside : ∀ e ∈ edits, e.span.stop ≤ content.length) {e : Edit} (mem : e ∈ inject content banner edits) :
    e.span.stop ≤ content.length := by
  rcases injectMem mem with old | ⟨_, ⟨first, listed, rfl⟩ | rfl⟩
  · exact inside e old
  · exact inside first listed
  · exact Nat.zero_le _

theorem injectReal {content banner : Bytes} {edits : List Edit} (real : ∀ e ∈ edits, e.isNoop = false) {e : Edit}
    (mem : e ∈ inject content banner edits) : e.isNoop = false := by
  rcases injectMem mem with old | ⟨full, ⟨first, _, rfl⟩ | rfl⟩
  · exact real e old
  · simp [Edit.isNoop, full]
  · simp [Edit.isNoop, full]

end KeepBlame.Notice
