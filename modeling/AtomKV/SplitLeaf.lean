import AtomKV.Records
import AtomKV.BTree

/-!
# Splitting a leaf

The loop moves records off the end of the left node until that node is at most half full; the new
record then goes to its side, and if the right side has no room for it, the right side's first
record goes back first. A record never takes more than half of a node (`slot_stub_le`), and from
this bound alone it follows that every assertion on the way holds, for all mixes of record sizes.
-/

set_option autoImplicit false

namespace AtomKV

/-! ## One step of a move -/

namespace Own

variable {Γ : PageScope} {b r : ℕ} {O : Multiset Obj} {s : TxState} {q t : Nat}
  {es es₁ es₂ : List Entry}

/-- A record is copied behind the last one of another leaf: `Append` and `SetIsBucket`. -/
theorem leafInsert_flag {key value : Bytes}
    (h : Own Γ (b + recordPages Γ.P key value) r (.node q (.leaf t (es₁ ++ es₂)) ::ₘ O) s)
    (hq : ¬ Γ.keep q) (hadm : Admissible Γ.P key value) (hfit : Fits Γ.P (es₁ ++ es₂) key value)
    (hslots : SlotFits Γ.P (es₁ ++ es₂)) (bucket : Bool) :
    ∃ s₁ s₂ run old, LeafNode.insert Γ.env q es₁.length key value s = (.ok true, s₁) ∧
      Own Γ b r (.node q (.leaf t (es₁ ++ ⟨key, value, old, run⟩ :: es₂)) ::ₘ O) s₁ ∧
      LeafNode.setIsBucket q es₁.length bucket s₁ = (.ok (), s₂) ∧
      Own Γ b r (.node q (.leaf t (es₁ ++ ⟨key, value, bucket, run⟩ :: es₂)) ::ₘ O) s₂ := by
  obtain ⟨_, s₁, hinsert, rfl, ⟨old, run, h₁⟩, -⟩ := h.leafInsert_ok hq hadm hfit hslots
  obtain ⟨s₂, hset, h₂, -⟩ := h₁.leafSetIsBucket hq bucket
  exact ⟨s₁, s₂, run, old, hinsert, h₁, hset, h₂⟩

end Own

/-! ## The loop -/

section Loop

variable {Γ : PageScope} {b r : ℕ} {O : Multiset Obj} {s : TxState} {left right tl tr : Nat}

theorem splitLeafLoop_ok (hleft : ¬ Γ.keep left) (hright : ¬ Γ.keep right) (es R : List Entry)
    (h : Own Γ (b + entriesPages Γ.P es) r
      (.node left (.leaf tl es) ::ₘ .node right (.leaf tr R) ::ₘ O) s)
    (htotal : fill Γ.P es + fill Γ.P R ≤ Γ.P - 18) (hfull : Γ.P - 18 < 2 * fill Γ.P es) :
    Exec.Ok (BTree.splitLeafLoop Γ.env left right es.length) s fun _ s' => ∃ G es₁ e es₂ M,
      es = es₁ ++ e :: es₂ ∧ 2 * fill Γ.P es₁ ≤ Γ.P - 18 ∧ Γ.P - 18 < 2 * fill Γ.P (es₁ ++ [e]) ∧
      SameData M (e :: es₂) ∧ JunkOnly G ∧ (SmallSizes es → G = 0) ∧
      Own Γ b r (.node left (.leaf tl es₁) ::ₘ .node right (.leaf tr (R ++ M.reverse)) ::ₘ (G + O))
        s' := by
  -- On the records that are still on the left; the loop takes the last of them.
  induction es using List.reverseRecOn generalizing R s O with
  | nil => simp at hfull
  | append_singleton es e ih =>
    have hadm :=
      (h.admissible_of_mem (q := left) (Multiset.mem_cons_self _ _) e (by simp)).admissible
    have hmr : Obj.node right (.leaf tr R) ∈
        .node left (.leaf tl (es ++ [e])) ::ₘ .node right (.leaf tr R) ::ₘ O :=
      Multiset.mem_cons_of_mem (Multiset.mem_cons_self _ _)
    have hml := Multiset.mem_cons_self (Obj.node left (.leaf tl (es ++ [e])))
      (.node right (.leaf tr R) ::ₘ O)
    have hlast : (es ++ [e])[es.length]? = some e := by simp
    -- What has gone to the right left the left node, so there is room for one record more.
    have hfit : Fits Γ.P (R ++ []) e.key e.value := by
      unfold Fits
      rw [fill_append, fill_cons, fill_nil, Entry.stub_eq] at htotal
      rw [List.append_nil]
      omega
    have hslots : SlotFits Γ.P (R ++ []) := by
      refine slotFits_of_half Γ.hP (show 2 * fill Γ.P R ≤ Γ.P - 18 by omega) ?_
      rw [List.append_nil]
      exact Nat.le_succ _
    have hpages : entriesPages Γ.P (es ++ [e]) =
        entriesPages Γ.P es + recordPages Γ.P e.key e.value := by
      simp [Entry.pages_eq]
    have h₀ : Own Γ (b + entriesPages Γ.P es + recordPages Γ.P e.key e.value) r
        (.node right (.leaf tr (R ++ [])) ::ₘ .node left (.leaf tl (es ++ [e])) ::ₘ O) s := by
      rw [List.append_nil, Multiset.cons_swap]
      rw [hpages, ← Nat.add_assoc] at h
      exact h
    obtain ⟨s₁, s₂, run, old, hins, h₁, hset, h₂⟩ :=
      h₀.leafInsert_flag hright hadm hfit hslots e.isBucket
    rw [Multiset.cons_swap] at h₂
    obtain ⟨s₃, G, hdel, hG, hG0, h₃, -⟩ := h₂.leafDelete hleft
    rw [List.append_nil] at h₃
    -- One turn of the loop, up to the test: the record is appended on the right and popped.
    have hbegin : ∀ (rest : TxM Unit), (do
        let key ← Node.getKey Γ.env left es.length
        let value ← LeafNode.getValue Γ.env left es.length
        let success ← LeafNode.append Γ.env right key value
        assert success
        let count ← Node.countOf right
        let b ← LeafNode.isBucket left es.length
        LeafNode.setIsBucket right (count - 1) b
        LeafNode.pop Γ.env left
        rest : TxM Unit) s = rest s₃ := fun rest => by
      have happend : LeafNode.append Γ.env right e.key e.value s = (.ok true, s₁) := by
        unfold LeafNode.append
        rw [Exec.bind_of_ok (h.countOf hmr), hins]
      have hpop : LeafNode.pop Γ.env left s₂ = (.ok (), s₃) := by
        unfold LeafNode.pop
        rw [Exec.bind_of_ok (h₂.countOf (Multiset.mem_cons_self _ _))]
        simpa using hdel
      rw [Exec.bind_of_ok (h.getKey hml hlast), Exec.bind_of_ok (h.getValue hml hlast),
        Exec.bind_of_ok happend]
      unfold assert
      rw [Exec.require_bind rfl, Exec.bind_of_ok (h₁.countOf (Multiset.mem_cons_self _ _)),
        Exec.bind_of_ok (h₁.isBucket (Multiset.mem_cons_of_mem (Multiset.mem_cons_self _ _)) hlast)]
      rw [show (NodeView.leaf tr (R ++ [⟨e.key, e.value, old, run⟩])).entries.length - 1 =
        R.length by
        simp, Exec.bind_of_ok hset, Exec.bind_of_ok hpop]
    have hdata : Entry.data ⟨e.key, e.value, e.isBucket, run⟩ = e.data := rfl
    have h₄ : Own Γ (b + entriesPages Γ.P es) r (.node left (.leaf tl es) ::ₘ
        .node right (.leaf tr (R ++ [⟨e.key, e.value, e.isBucket, run⟩])) ::ₘ (G + O)) s₃ := by
      refine (h₃.perm ?_)
      rw [Multiset.add_cons]
    have hrate := h₄.fillRate (Multiset.mem_cons_self _ _)
    rw [show (es ++ [e]).length = es.length + 1 by simp]
    -- The loop ends at the first turn that leaves the left node at most half full.
    by_cases hhalf : Γ.P - 18 < 2 * fill Γ.P es
    · have hG0' : SmallSizes (es ++ [e]) → G = 0 := fun hs => hG0 (hs e (by simp))
      obtain ⟨_, s', hrun, G', es₁, e', es₂, M, hes, hf1, hf2, hM, hG', hG0'', hown⟩ :=
        ih (R ++ [⟨e.key, e.value, e.isBucket, run⟩]) h₄ (by
          rw [fill_append, fill_cons, fill_nil, Entry.stub_eq] at htotal ⊢
          simp only at htotal ⊢
          omega) hhalf
      refine Exec.Ok.intro () s' ?_ ⟨G' + G, es₁, e', es₂ ++ [e],
        M ++ [⟨e.key, e.value, e.isBucket, run⟩], by rw [hes]; simp, hf1, hf2,
        hM.append (SameData.cons hdata (SameData.refl [])), hG'.add hG, fun hs => ?_, ?_⟩
      · unfold BTree.splitLeafLoop
        rw [hbegin, Exec.bind_of_ok hrate]
        rw [if_neg (by simpa [Node.rateGt] using hhalf)]
        exact hrun
      · rw [hG0' hs, hG0'' fun x hx => hs x (List.mem_append_left _ hx), add_zero]
      · refine hown.perm ?_
        rw [List.reverse_append, List.append_assoc, add_assoc]
        rfl
    · refine Exec.Ok.intro () s₃ ?_ ⟨G, es, e, [], [⟨e.key, e.value, e.isBucket, run⟩],
        rfl, by omega, hfull, SameData.cons hdata (SameData.refl []), hG,
        fun hs => hG0 (hs e (by simp)), ?_⟩
      · unfold BTree.splitLeafLoop
        rw [hbegin, Exec.bind_of_ok hrate]
        rw [if_pos (by simpa [Node.rateGt] using hhalf)]
        rfl
      · exact h₄.room_mono _ (Nat.le_add_right _ _)

end Loop

/-! ## The new record -/

section Insert

variable {Γ : PageScope} {b r : ℕ} {O : Multiset Obj} {s : TxState} {left right tl tr : Nat}
  {key value : Bytes}

theorem splitLeafInsert_ok (hleft : ¬ Γ.keep left) (hright : ¬ Γ.keep right) {L Ms A B : List Entry}
    {m : Entry} (isBucket : Bool) (hadm : Admissible Γ.P key value)
    (h : Own Γ (b + recordPages Γ.P key value + m.pages Γ.P) r
      (.node left (.leaf tl L) ::ₘ .node right (.leaf tr (m :: Ms)) ::ₘ O) s)
    (hL : L ≠ []) (hhalf : 2 * fill Γ.P L ≤ Γ.P - 18) (hrest : 2 * fill Γ.P Ms ≤ Γ.P - 18)
    (hsplit : L ++ m :: Ms = A ++ B) :
    Exec.Ok (BTree.splitLeafInsert Γ.env left right A.length key value isBucket) s fun _ s' =>
      ∃ G L' R', SameData (L' ++ R') (A ++ ⟨key, value, isBucket, 0⟩ :: B) ∧ L' ≠ [] ∧ R' ≠ [] ∧
        L'.length = (if L.length < A.length ∧ Fits Γ.P (m :: Ms) key value then L.length
          else L.length + 1) ∧
        JunkOnly G ∧ (m.size < 4294967296 → G = 0) ∧
        Own Γ b r (.node left (.leaf tl L') ::ₘ .node right (.leaf tr R') ::ₘ (G + O)) s' := by
  have hcount : Node.countOf left s = (.ok L.length, s) := h.countOf (Multiset.mem_cons_self _ _)
  have hdata : ∀ run, Entry.data ⟨key, value, isBucket, run⟩ =
      Entry.data ⟨key, value, isBucket, 0⟩ := fun _ => rfl
  by_cases hi : L.length < A.length
  · -- the record belongs to the right node
    obtain ⟨A', hA, hA'⟩ : ∃ A', A = L ++ A' ∧ m :: Ms = A' ++ B := by
      obtain ⟨A', h1, h2⟩ | ⟨A', h1, h2⟩ := List.append_eq_append_iff.1 hsplit
      · exact ⟨A', h1, h2⟩
      · rw [h1, List.length_append] at hi
        omega
    have hAlen : A.length - L.length = A'.length := by
      rw [hA, List.length_append]
      omega
    have hunfold : BTree.splitLeafInsert Γ.env left right A.length key value isBucket s =
        (do
          let success ← LeafNode.insert Γ.env right A'.length key value
          if !success then do
            let firstKey ← Node.getKey Γ.env right 0
            let firstValue ← LeafNode.getValue Γ.env right 0
            let success ← LeafNode.append Γ.env left firstKey firstValue
            assert success
            let count ← Node.countOf left
            let b ← LeafNode.isBucket right 0
            LeafNode.setIsBucket left (count - 1) b
            LeafNode.delete Γ.env right 0
            let leftCount ← Node.countOf left
            let success ← LeafNode.insert Γ.env right (A.length - leftCount) key value
            assert success
          let leftCount ← Node.countOf left
          LeafNode.setIsBucket right (A.length - leftCount) isBucket : TxM Unit) s := by
      unfold BTree.splitLeafInsert
      rw [Exec.bind_of_ok hcount, if_pos hi, hAlen]
    rw [hA', Multiset.cons_swap] at h
    by_cases hfit : Fits Γ.P (A' ++ B) key value
    · obtain ⟨s₁, s₂, run, old, hins, h₁, hset, h₂⟩ :=
        (h.room_mono (b + recordPages Γ.P key value) (Nat.le_add_right _ _)).leafInsert_flag
          hright hadm hfit (slotFits_of_half Γ.hP hrest (by rw [← hA']; exact Nat.le_refl _))
            isBucket
      refine Exec.Ok.intro () s₂ ?_ ⟨0, L, A' ++ ⟨key, value, isBucket, run⟩ :: B, ?_,
        hL, by simp, (if_pos ⟨hi, by rwa [hA']⟩).symm, JunkOnly.zero, fun _ => rfl, ?_⟩
      · rw [hunfold, Exec.bind_of_ok hins]
        have hcount' : Node.countOf left s₁ = (.ok L.length, s₁) :=
          h₁.countOf (Multiset.mem_cons_of_mem (Multiset.mem_cons_self _ _))
        simp only [Bool.not_true, Bool.false_eq_true, if_false]
        rw [Exec.bind_of_ok hcount', hAlen, hset]
      · rw [hA, List.append_assoc]
        exact (SameData.refl L).append
          ((SameData.refl A').append (SameData.cons (hdata run) (SameData.refl B)))
      · rw [Multiset.cons_swap, zero_add]
        exact h₂
    · -- no room: the first record of the right node goes back to the left one
      obtain ⟨A'', rfl⟩ : ∃ A'', A' = m :: A'' := by
        cases A' with
        | nil =>
          rw [List.length_nil] at hAlen
          omega
        | cons x A'' =>
          obtain ⟨h1, -⟩ := List.cons.inj hA'
          exact ⟨A'', by rw [h1]⟩
      obtain ⟨-, rfl⟩ := List.cons.inj hA'
      have hm₀ : (m :: (A'' ++ B))[0]? = some m := rfl
      have hmr : Obj.node right (.leaf tr (m :: (A'' ++ B))) ∈
          .node right (.leaf tr (m :: A'' ++ B)) ::ₘ .node left (.leaf tl L) ::ₘ O :=
        Multiset.mem_cons_self _ _
      have hadm' : Admissible Γ.P m.key m.value :=
        (h.admissible_of_mem hmr m List.mem_cons_self).admissible
      have h₀ : Own Γ (b + recordPages Γ.P key value + recordPages Γ.P m.key m.value) r
          (.node left (.leaf tl (L ++ [])) ::ₘ .node right (.leaf tr (m :: (A'' ++ B))) ::ₘ O)
            s := by
        rw [List.append_nil, Multiset.cons_swap]
        exact h
      obtain ⟨s₁, s₂, run, old, hins, h₁, hset, h₂⟩ := h₀.leafInsert_flag hleft hadm'
        (fits_of_half Γ.hP (by rwa [List.append_nil]) _ _)
        (slotFits_of_half Γ.hP hhalf (by rw [List.append_nil]; exact Nat.le_succ _)) m.isBucket
      rw [Multiset.cons_swap] at h₂
      obtain ⟨s₃, G, hdel, hG, hG0, h₃⟩ := h₂.leafDelete_first hright
      obtain ⟨s₄, s₅, run', old', hins', h₄, hset', h₅⟩ := h₃.leafInsert_flag hright hadm
        (fits_of_half Γ.hP hrest key value) (slotFits_of_half Γ.hP hrest (Nat.le_succ _)) isBucket
      have hleft₃ : Obj.node left (.leaf tl (L ++ [⟨m.key, m.value, m.isBucket, run⟩])) ∈
          G + .node left (.leaf tl (L ++ [⟨m.key, m.value, m.isBucket, run⟩])) ::ₘ O :=
        Multiset.mem_add.2 (.inr (Multiset.mem_cons_self _ _))
      have hlen' : A.length - (L.length + 1) = A''.length := by
        rw [List.length_cons] at hAlen
        omega
      refine Exec.Ok.intro () s₅ ?_ ⟨G, L ++ [⟨m.key, m.value, m.isBucket, run⟩],
        A'' ++ ⟨key, value, isBucket, run'⟩ :: B, ?_, by simp, by simp, ?_, hG, hG0, ?_⟩
      · have hcount₁ : Node.countOf left s₁ = (.ok (L.length + 1), s₁) := by
          rw [h₁.countOf (Multiset.mem_cons_self _ _)]
          simp
        have hcount₃ : Node.countOf left s₃ = (.ok (L.length + 1), s₃) := by
          rw [h₃.countOf (Multiset.mem_cons_of_mem hleft₃)]
          simp
        have hcount₄ : Node.countOf left s₄ = (.ok (L.length + 1), s₄) := by
          rw [h₄.countOf (Multiset.mem_cons_of_mem hleft₃)]
          simp
        have happend : LeafNode.append Γ.env left m.key m.value s = (.ok true, s₁) := by
          unfold LeafNode.append
          rw [Exec.bind_of_ok hcount, hins]
        rw [hunfold, Exec.bind_of_ok (h.leafInsert_refused hfit)]
        simp only [Bool.not_false, if_true]
        rw [Exec.bind_of_ok (h.getKey hmr hm₀), Exec.bind_of_ok (h.getValue hmr hm₀),
          Exec.bind_of_ok happend]
        unfold assert
        rw [Exec.require_bind rfl, Exec.bind_of_ok hcount₁,
          Exec.bind_of_ok (h₁.isBucket (Multiset.mem_cons_of_mem (Multiset.mem_cons_self _ _)) hm₀),
          Nat.add_sub_cancel, Exec.bind_of_ok hset]
        rw [Exec.bind_of_ok (show LeafNode.delete Γ.env right 0 s₂ = _ from hdel),
          Exec.bind_of_ok hcount₃, hlen', Exec.bind_of_ok hins', Exec.require_bind rfl,
          Exec.bind_of_ok hcount₄, hlen', hset']
      · rw [hA, List.append_assoc, List.append_assoc]
        exact (SameData.refl L).append (SameData.cons rfl
          ((SameData.refl A'').append (SameData.cons (hdata run') (SameData.refl B))))
      · rw [if_neg fun h => hfit h.2, List.length_append, List.length_singleton]
      · refine h₅.perm ?_
        rw [Multiset.add_cons, Multiset.cons_swap]
  · -- the record belongs to the left node
    obtain ⟨B', hB, hL'⟩ : ∃ B', B = B' ++ m :: Ms ∧ L = A ++ B' := by
      obtain ⟨A', h1, h2⟩ | ⟨A', h1, h2⟩ := List.append_eq_append_iff.1 hsplit
      · have : A' = [] := by
          rw [h1, List.length_append] at hi
          exact List.length_eq_zero_iff.1 (by omega)
        subst this
        exact ⟨[], h2.symm, by simpa using h1.symm⟩
      · exact ⟨A', h2, h1⟩
    rw [hL'] at h hhalf
    obtain ⟨s₁, s₂, run, old, hins, h₁, hset, h₂⟩ :=
      (h.room_mono (b + recordPages Γ.P key value) (Nat.le_add_right _ _)).leafInsert_flag
        hleft hadm (fits_of_half Γ.hP hhalf key value) (slotFits_of_half Γ.hP hhalf (Nat.le_succ _))
          isBucket
    refine Exec.Ok.intro () s₂ ?_ ⟨0, A ++ ⟨key, value, isBucket, run⟩ :: B', m :: Ms, ?_,
      by simp, by simp, ?_, JunkOnly.zero, fun _ => rfl, ?_⟩
    · unfold BTree.splitLeafInsert
      rw [Exec.bind_of_ok hcount, if_neg hi, Exec.bind_of_ok hins]
      unfold assert
      rw [Exec.require_bind rfl, hset]
    · rw [hB, List.append_assoc]
      exact (SameData.refl A).append (SameData.cons (hdata run) (SameData.refl _))
    · rw [if_neg fun h => hi h.1, hL']
      simp only [List.length_append, List.length_cons]
      omega
    · rw [zero_add]
      exact h₂

/-- The key that separates the two halves of a leaf with the records `es` into which a record is
inserted at position `i`. -/
def leafRisingKey (P : Nat) (es : List Entry) (i : Nat) (key value : Bytes) : Bytes :=
  let k := splitCount P 0 es
  ((es.map Entry.key).insertIdx i key).getD
    (if k < i ∧ Fits P (es.drop k) key value then k else k + 1) []

/-- **`BTree::Split(LeafNode*)`.** A leaf that refused a record is split in two, and the two halves
hold the old records with the new one in its place. -/
theorem splitLeaf_ok (hleft : ¬ Γ.keep left) {A B : List Entry} (isBucket : Bool)
    (hadm : Admissible Γ.P key value)
    (h : Own Γ (b + (1 + 2 * entriesPages Γ.P (A ++ B) + recordPages Γ.P key value)) r
      (.node left (.leaf tl (A ++ B)) ::ₘ O) s) (hfull : ¬ Fits Γ.P (A ++ B) key value) :
    Exec.Ok (BTree.splitLeaf Γ.env left A.length key value isBucket) s fun right s' =>
      ¬ Γ.keep right ∧ ∃ G L u R, SameData (L ++ u :: R) (A ++ ⟨key, value, isBucket, 0⟩ :: B) ∧
        L ≠ [] ∧ u.key = leafRisingKey Γ.P (A ++ B) A.length key value ∧ JunkOnly G ∧
        (SmallSizes (A ++ B) → G = 0) ∧ Own Γ b r
          (.node left (.leaf tl L) ::ₘ .node right (.leaf Γ.txid (u :: R)) ::ₘ (G + O)) s' := by
  have hfill := full_of_not_fits Γ.hP hfull
  have htwo := two_le_length Γ.hP hfill
  have hle := h.fill_le_of_mem (Multiset.mem_cons_self _ _)
  have hcount : Node.countOf left s = (.ok (A ++ B).length, s) :=
    h.countOf (Multiset.mem_cons_self _ _)
  obtain ⟨right, s₁, halloc, h₁⟩ := Own.alloc (n := 1)
    (h.room_mono (b + (2 * entriesPages Γ.P (A ++ B) + recordPages Γ.P key value) + 1) (by omega))
  obtain ⟨s₂, hbuild, hright, h₂, -⟩ := h₁.buildLeaf
  rw [Multiset.cons_swap] at h₂
  have hrate : Node.fillRate Γ.env left s₂ = (.ok (fill Γ.P (A ++ B), Γ.P - 18), s₂) :=
    h₂.fillRate (Multiset.mem_cons_self _ _)
  obtain ⟨_, s₃, hloop, G, es₁, e, es₂, M, hes, hhalf, hover, hM, hG, hG0, h₃⟩ :=
    splitLeafLoop_ok (b := b + (entriesPages Γ.P (A ++ B) + recordPages Γ.P key value)) hleft hright
      (A ++ B) [] (h₂.room_mono _ (by omega)) (by simpa using hle) hfill
  -- At least one record moved, and it comes first once the slots of the right node are reversed.
  obtain ⟨m, Ms, rfl⟩ : ∃ m Ms, M = m :: Ms := by
    cases M with
    | nil => simp [SameData] at hM
    | cons m Ms => exact ⟨m, Ms, rfl⟩
  obtain ⟨hm, hMs⟩ := List.cons.inj hM
  rw [Multiset.cons_swap] at h₃
  obtain ⟨s₄, hreverse, h₄⟩ := h₃.reverseSlots_leaf hright
  rw [List.nil_append, List.reverse_reverse, Multiset.cons_swap] at h₄
  have hrate₄ : Node.fillRate Γ.env left s₄ = (.ok (fill Γ.P es₁, Γ.P - 18), s₄) :=
    h₄.fillRate (Multiset.mem_cons_self _ _)
  have hfillM : fill Γ.P Ms = fill Γ.P es₂ := SameContent.fill_eq (SameData.content hMs)
  have hpages : m.pages Γ.P ≤ entriesPages Γ.P (A ++ B) := by
    have hm' : entriesPages Γ.P [m] = entriesPages Γ.P [e] :=
      (SameData.cons hm (SameData.refl [])).content.entriesPages_eq
    rw [hes, entriesPages_append, entriesPages_cons]
    simp only [entriesPages_cons, entriesPages_nil] at hm'
    omega
  -- The left node was more than half full before the last move, so the others fit in half a page.
  have hrest : 2 * fill Γ.P Ms ≤ Γ.P - 18 := by
    rw [hes] at hle
    rw [fill_append, fill_cons] at hle
    rw [fill_append, fill_cons, fill_nil] at hover
    rw [hfillM]
    omega
  have hne : es₁ ≠ [] := ne_nil_of_over Γ.hP hover
  have hsame : SameData (es₁ ++ m :: Ms) (A ++ B) := by
    rw [hes]
    exact (SameData.refl es₁).append hM
  -- The moved records are stored anew; the position of the new record is the same in both lists.
  obtain ⟨A', B', hsplit, hA, hB⟩ := hsame.exists_append
  obtain ⟨_, s₅, hinsert, G', L, R, hdata, hL, hR, hlenL, hG', hG0', h₅⟩ :=
    splitLeafInsert_ok (A := A') (B := B') (b := b) hleft hright isBucket hadm
      (h₄.room_mono _ (by omega)) hne hhalf hrest hsplit
  obtain ⟨u, R, rfl⟩ := List.exists_cons_of_ne_nil hR
  have hdata' : SameData (L ++ u :: R) (A ++ ⟨key, value, isBucket, 0⟩ :: B) :=
    hdata.trans (hA.append (SameData.cons rfl hB))
  have hsmall : e.size = m.size := (SameData.size_eq hm).symm
  have hcountL : Node.countOf left s₅ = (.ok L.length, s₅) :=
    h₅.countOf (Multiset.mem_cons_self _ _)
  have hcountR : Node.countOf right s₅ = (.ok (u :: R).length, s₅) :=
    h₅.countOf (Multiset.mem_cons_of_mem (Multiset.mem_cons_self _ _))
  refine Exec.Ok.intro right s₅ ?_ ⟨hright, G' + G, L, u, R, hdata', hL, ?_, hG'.add hG,
    fun hs => ?_, ?_⟩
  · have hsum : L.length + (u :: R).length = (A ++ B).length + 1 := by
      have h1 := hdata.length_eq
      have h2 := hsame.length_eq
      rw [hsplit] at h2
      simp only [List.length_append, List.length_cons] at h1 h2 ⊢
      omega
    have hLpos := List.length_pos_iff.2 hL
    have hRpos := List.length_pos_iff.2 hR
    unfold BTree.splitLeaf assert
    rw [Exec.bind_of_ok hcount, Exec.require_bind (by simp), Exec.bind_of_ok halloc,
      Exec.bind_of_ok hbuild, Exec.require_bind htwo, Exec.bind_of_ok hrate,
      Exec.require_bind (by simpa [Node.rateGt] using hfill), Exec.bind_of_ok hloop,
      Exec.bind_of_ok hreverse, Exec.bind_of_ok hrate₄,
      Exec.require_bind (by simpa [Node.rateGt] using hhalf), ← hA.length_eq,
      Exec.bind_of_ok hinsert, Exec.bind_of_ok hcountL, Exec.bind_of_ok hcountR,
      Exec.require_bind (by omega)]
    rfl
  -- The key that rises is read off the old records, with the position of the split.
  · have hfits : Fits Γ.P (m :: Ms) key value ↔ Fits Γ.P (e :: es₂) key value := by
      unfold Fits
      rw [SameContent.fill_eq hM.content]
    have hkey : leafRisingKey Γ.P (A ++ B) A.length key value =
        (((A ++ B).map Entry.key).insertIdx A.length key).getD L.length [] := by
      unfold leafRisingKey
      rw [hlenL, hA.length_eq, hes, splitCount_eq es₂ es₁ 0 (by omega) (by omega)]
      simp only [List.drop_left, hfits]
    rw [hkey]
    exact hdata'.content.key_eq_getD
  · rw [hG0 hs, hG0' (by rw [← hsmall]; exact hs e (by rw [hes]; simp)), add_zero]
  · refine h₅.perm ?_
    rw [add_assoc]

end Insert

end AtomKV
