import AtomKV.Manager

/-!
# The map of the open views

`view_tx_map_` counts the open views of each transaction, the oldest first.
-/

set_option autoImplicit false

namespace AtomKV

namespace Manager

/-- How many views the map counts for a transaction. -/
def openCount (txid : Nat) : List (Nat × Nat) → Nat
  | [] => 0
  | e :: rest => (if e.1 = txid then e.2 else 0) + openCount txid rest

/-- The map has the open views, the oldest first. -/
structure Registered (views : List MetaInfo) (m : List (Nat × Nat)) : Prop where
  sorted : m.Pairwise fun a b => a.1 < b.1
  pos : ∀ e ∈ m, 0 < e.2
  counted : ∀ txid, (views.map MetaInfo.txid).count txid = openCount txid m

variable {views : List MetaInfo} {m m' : List (Nat × Nat)} {txid : Nat}

theorem openCount_pos {e : Nat × Nat} (he : e ∈ m) (hpos : 0 < e.2) : 0 < openCount e.1 m := by
  induction m with
  | nil => cases he
  | cons e' m ih =>
    rw [openCount]
    rcases List.mem_cons.1 he with rfl | he
    · rw [if_pos rfl]
      exact Nat.add_pos_left hpos _
    · exact Nat.add_pos_right _ (ih he)

theorem exists_of_openCount (h : 0 < openCount txid m) : ∃ e ∈ m, e.1 = txid := by
  induction m with
  | nil => cases h
  | cons e m ih =>
    rw [openCount] at h
    by_cases heq : e.1 = txid
    · exact ⟨e, List.mem_cons_self, heq⟩
    · rw [if_neg heq, Nat.zero_add] at h
      obtain ⟨e', he', heq'⟩ := ih h
      exact ⟨e', List.mem_cons_of_mem _ he', heq'⟩

theorem mem_addView {e : Nat × Nat} (he : e ∈ addView txid m) : (e.1 = txid ∧ 0 < e.2) ∨ e ∈ m := by
  induction m with
  | nil =>
    rw [List.mem_singleton.1 he]
    exact .inl ⟨rfl, Nat.one_pos⟩
  | cons e' m ih =>
    obtain ⟨t, n⟩ := e'
    unfold addView at he
    split_ifs at he with h1 h2
    · rcases List.mem_cons.1 he with rfl | he
      · exact .inr List.mem_cons_self
      · exact (ih he).imp_right (List.mem_cons_of_mem _)
    · rcases List.mem_cons.1 he with rfl | he
      · exact .inl ⟨h2, Nat.succ_pos n⟩
      · exact .inr (List.mem_cons_of_mem _ he)
    · rcases List.mem_cons.1 he with rfl | he
      · exact .inl ⟨rfl, Nat.one_pos⟩
      · exact .inr he

theorem pairwise_addView (h : m.Pairwise fun a b => a.1 < b.1) :
    (addView txid m).Pairwise fun a b => a.1 < b.1 := by
  induction m with
  | nil => exact List.pairwise_singleton _ _
  | cons e m ih =>
    obtain ⟨t, n⟩ := e
    obtain ⟨hlt, hm⟩ := List.pairwise_cons.1 h
    unfold addView
    split_ifs with h1 h2
    · refine List.pairwise_cons.2 ⟨fun e he => ?_, ih hm⟩
      rcases mem_addView he with ⟨heq, -⟩ | he
      · rw [heq]
        exact h1
      · exact hlt e he
    · exact List.pairwise_cons.2 ⟨hlt, hm⟩
    · have hnew : txid < t := Nat.lt_of_le_of_ne (Nat.not_lt.1 h1) (Ne.symm h2)
      refine List.pairwise_cons.2 ⟨fun e he => ?_, h⟩
      rcases List.mem_cons.1 he with rfl | he
      · exact hnew
      · exact hnew.trans (hlt e he)

theorem openCount_addView (t : Nat) :
    openCount t (addView txid m) = openCount t m + if txid = t then 1 else 0 := by
  induction m with
  | nil =>
    unfold addView openCount
    rw [Nat.add_comm]
    rfl
  | cons e m ih =>
    obtain ⟨k, n⟩ := e
    unfold addView
    by_cases h1 : k < txid
    · rw [if_pos h1, openCount, ih, openCount, Nat.add_assoc]
    · rw [if_neg h1]
      by_cases h2 : k = txid
      · subst h2
        rw [if_pos rfl, openCount, openCount]
        split_ifs <;> omega
      · rw [if_neg h2, openCount, Nat.add_comm]

theorem mem_removeView {e : Nat × Nat} (h : removeView txid m = some m') (he : e ∈ m') :
    (e.1 = txid ∧ 0 < e.2) ∨ e ∈ m := by
  induction m generalizing m' with
  | nil => cases h
  | cons e' m ih =>
    obtain ⟨t, n⟩ := e'
    unfold removeView at h
    split_ifs at h with h1 h2 h3
    · cases h
      exact .inr (List.mem_cons_of_mem _ he)
    · cases h
      rcases List.mem_cons.1 he with rfl | he
      · exact .inl ⟨h1, show 0 < n - 1 by omega⟩
      · exact .inr (List.mem_cons_of_mem _ he)
    · obtain ⟨m₁, hm₁, rfl⟩ := Option.map_eq_some_iff.1 h
      rcases List.mem_cons.1 he with rfl | he
      · exact .inr List.mem_cons_self
      · exact (ih hm₁ he).imp_right (List.mem_cons_of_mem _)

theorem fst_removeView (h : removeView txid m = some m') :
    (m'.map Prod.fst).Sublist (m.map Prod.fst) := by
  induction m generalizing m' with
  | nil => cases h
  | cons e m ih =>
    obtain ⟨t, n⟩ := e
    unfold removeView at h
    split_ifs at h with h1 h2 h3
    · cases h
      exact List.sublist_cons_self _ _
    · cases h
      exact List.Sublist.refl _
    · obtain ⟨m₁, hm₁, rfl⟩ := Option.map_eq_some_iff.1 h
      exact (ih hm₁).cons_cons _

theorem openCount_removeView (h : removeView txid m = some m') (t : Nat) :
    openCount t m' + (if txid = t then 1 else 0) = openCount t m := by
  induction m generalizing m' with
  | nil => cases h
  | cons e m ih =>
    obtain ⟨k, n⟩ := e
    unfold removeView at h
    split_ifs at h with h1 h2 h3
    · cases h
      subst h1 h3
      rw [openCount, Nat.add_comm]
    · cases h
      subst h1
      rw [openCount, openCount]
      split_ifs <;> omega
    · obtain ⟨m₁, hm₁, rfl⟩ := Option.map_eq_some_iff.1 h
      rw [openCount, openCount, Nat.add_assoc, ih hm₁]

/-- A view is opened. -/
theorem Registered.add (h : Registered views m) (info : MetaInfo) :
    Registered (views ++ [info]) (addView info.txid m) where
  sorted := pairwise_addView h.sorted
  pos := fun e he => (mem_addView he).elim And.right (h.pos e)
  counted := fun t => by
    rw [openCount_addView, List.map_append, List.count_append, h.counted t, List.map_singleton,
      List.count_singleton]
    simp only [beq_iff_eq]

/-- A view is closed. -/
theorem Registered.remove (h : Registered views m) {i : Nat} {info : MetaInfo}
    (hi : views[i]? = some info) (hm : removeView info.txid m = some m') :
      Registered (views.eraseIdx i) m' where
  sorted := by
    have hkeys : (m.map Prod.fst).Pairwise (· < ·) := List.pairwise_map.2 h.sorted
    exact List.pairwise_map.1 (hkeys.sublist (fst_removeView hm))
  pos := fun e he => (mem_removeView hm he).elim And.right (h.pos e)
  counted := fun t => by
    have hcount := openCount_removeView hm t
    obtain ⟨hlt, rfl⟩ := List.getElem?_eq_some_iff.1 hi
    have hperm := (List.getElem_cons_eraseIdx_perm hlt).map MetaInfo.txid
    have hviews := hperm.count_eq t
    rw [List.map_cons, List.count_cons, h.counted t] at hviews
    simp only [beq_iff_eq] at hviews
    omega

/-- The oldest view. -/
theorem Registered.first_le {e : Nat × Nat} (h : Registered views (e :: m)) {info : MetaInfo}
    (hv : info ∈ views) : e.1 ≤ info.txid := by
  have hpos : 0 < (views.map MetaInfo.txid).count info.txid :=
    List.count_pos_iff.2 (List.mem_map_of_mem hv)
  rw [h.counted] at hpos
  obtain ⟨e', he', heq⟩ := exists_of_openCount hpos
  rw [← heq]
  rcases List.mem_cons.1 he' with rfl | he'
  · exact Nat.le_refl _
  · exact Nat.le_of_lt ((List.pairwise_cons.1 h.sorted).1 e' he')

/-- The first entry is that of an open view. -/
theorem Registered.exists_first {e : Nat × Nat} (h : Registered views (e :: m)) :
    ∃ info ∈ views, info.txid = e.1 := by
  have hpos : 0 < openCount e.1 (e :: m) :=
    openCount_pos List.mem_cons_self (h.pos e List.mem_cons_self)
  rw [← h.counted] at hpos
  exact List.mem_map.1 (List.count_pos_iff.1 hpos)

end Manager

end AtomKV
