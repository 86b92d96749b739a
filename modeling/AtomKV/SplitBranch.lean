import AtomKV.Records
import AtomKV.BTree

/-!
# Splitting a branch

As for a leaf, the loop moves keys with their left children off the end of the left node. The tail
child of the left node stays behind in it; until the key that rises is chosen, the node's true
children are the ones before that stale tail, followed by the children of the right node. The
invariants below are about these lists: `A` and `B` are the children in front of the tail children
of the two nodes.

The insertion has a second try when the right node refuses the key, and this second try takes the
stale tail for a child: `splitBranchInsert_retry` says what it leaves behind.
-/

set_option autoImplicit false

namespace AtomKV

section Moves

variable {Γ : PageScope} {b r : ℕ} {O : Multiset Obj} {s : TxState} {q t : Nat}
  {es es₁ es₂ : List Entry} {ks₁ ks₂ kids : List Nat} {key : Bytes}

namespace Own

theorem branch_values (h : Own Γ b r O s) (hm : Obj.node q (.branch t es kids) ∈ O) :
    ∀ e ∈ es, e.value = [] := by
  obtain ⟨n, hrep, -⟩ := h.read_of_mem hm
  exact hrep.body.2.1

theorem branch_kids_length (h : Own Γ b r O s) (hm : Obj.node q (.branch t es kids) ∈ O) :
    kids.length = es.length + 1 := by
  obtain ⟨n, hrep, -⟩ := h.read_of_mem hm
  exact kids_length hrep

/-- A key enters a branch with its left child. -/
theorem branchInsert_left'
    (h : Own Γ (b + recordPages Γ.P key []) r
      (.node q (.branch t (es₁ ++ es₂) (ks₁ ++ ks₂)) ::ₘ O) s) (hq : ¬ Γ.keep q)
    (hks : ks₁.length = es₁.length) (hadm : Admissible Γ.P key [])
    (hfit : Fits Γ.P (es₁ ++ es₂) key []) (hslots : SlotFits Γ.P (es₁ ++ es₂)) (child : Nat) :
    ∃ s' bucket run, BranchNode.insert Γ.env q es₁.length key child false s = (.ok true, s') ∧
      Own Γ b r (.node q (.branch t (es₁ ++ ⟨key, [], bucket, run⟩ :: es₂)
        (ks₁ ++ child :: ks₂)) ::ₘ O) s' := by
  have hlen := h.branch_kids_length (Multiset.mem_cons_self _ _)
  cases ks₂ with
  | nil =>
    simp only [List.append_nil, List.length_append] at hlen
    omega
  | cons c ks₂ =>
    obtain ⟨_, s', hrun, rfl, bucket, run, h'⟩ := h.branchInsert_left hq hks hadm hfit hslots child
    exact ⟨s', bucket, run, hrun, h'⟩

/-- `BranchNode::Pop` with the left child of the last key. -/
theorem branchPop_left {e : Entry} {c : Nat}
    (h : Own Γ b r (.node q (.branch t (es ++ [e]) (ks₁ ++ c :: ks₂)) ::ₘ O) s) (hq : ¬ Γ.keep q)
    (hks : ks₁.length = es.length) :
    ∃ s', BranchNode.pop Γ.env q false s = (.ok (), s') ∧
      Own Γ b r (.node q (.branch t es (ks₁ ++ ks₂)) ::ₘ O) s' := by
  obtain ⟨s', hdel, h', -⟩ := h.branchDelete_left hq hks
  rw [List.append_nil] at h'
  refine ⟨s', ?_, h'⟩
  unfold BranchNode.pop
  rw [Exec.bind_of_ok (h.countOf (Multiset.mem_cons_self _ _))]
  simpa using hdel

/-- `BranchNode::Pop` with the right child of the last key. -/
theorem branchPop_right {e : Entry} {c d : Nat}
    (h : Own Γ b r (.node q (.branch t (es ++ [e]) (ks₁ ++ [c, d])) ::ₘ O) s) (hq : ¬ Γ.keep q)
    (hks : ks₁.length = es.length) :
    ∃ s', BranchNode.pop Γ.env q true s = (.ok (), s') ∧
      Own Γ b r (.node q (.branch t es (ks₁ ++ [c])) ::ₘ O) s' := by
  obtain ⟨s', hdel, h', -⟩ := h.branchDelete_right hq hks
  rw [List.append_nil] at h'
  refine ⟨s', ?_, h'⟩
  unfold BranchNode.pop
  rw [Exec.bind_of_ok (h.countOf (Multiset.mem_cons_self _ _))]
  simpa using hdel

end Own

end Moves

/-! ## The loop -/

section Loop

variable {Γ : PageScope} {b r : ℕ} {O : Multiset Obj} {s : TxState} {left right tl tr tail x : Nat}

theorem splitBranchLoop_ok (hleft : ¬ Γ.keep left) (hright : ¬ Γ.keep right) (es R : List Entry)
    (ks ksR : List Nat) (hks : ks.length = es.length) (hksR : ksR.length = R.length)
    (h : Own Γ (b + entriesPages Γ.P es) r
      (.node left (.branch tl es (ks ++ [tail])) ::ₘ
        .node right (.branch tr R (ksR ++ [x])) ::ₘ O) s)
    (htotal : fill Γ.P es + fill Γ.P R ≤ Γ.P - 18) (hfull : Γ.P - 18 < 2 * fill Γ.P es) :
    Exec.Ok (BTree.splitBranchLoop Γ.env left right es.length) s fun _ s' =>
      ∃ es₁ e es₂ M ks₁ ks₂, es = es₁ ++ e :: es₂ ∧ ks = ks₁ ++ ks₂ ∧ ks₁.length = es₁.length ∧
        2 * fill Γ.P es₁ ≤ Γ.P - 18 ∧ Γ.P - 18 < 2 * fill Γ.P (es₁ ++ [e]) ∧
        SameContent M (e :: es₂) ∧
        Own Γ b r (.node left (.branch tl es₁ (ks₁ ++ [tail])) ::ₘ
          .node right (.branch tr (R ++ M.reverse) ((ksR ++ ks₂.reverse) ++ [x])) ::ₘ O) s' := by
  -- On the keys that are still on the left; each turn takes the last key with its left child.
  induction es using List.reverseRecOn generalizing R ks ksR s with
  | nil => simp at hfull
  | append_singleton es e ih =>
    obtain ⟨ks, c, rfl⟩ : ∃ ks' c, ks = ks' ++ [c] := by
      rcases List.eq_nil_or_concat' ks with rfl | ⟨ks', c, rfl⟩
      · simp at hks
      · exact ⟨ks', c, rfl⟩
    have hks' : ks.length = es.length := by simpa using hks
    have hml :=
      Multiset.mem_cons_self (Obj.node left (.branch tl (es ++ [e]) (ks ++ [c] ++ [tail])))
      (.node right (.branch tr R (ksR ++ [x])) ::ₘ O)
    have hmr : Obj.node right (.branch tr R (ksR ++ [x])) ∈
        .node left (.branch tl (es ++ [e]) (ks ++ [c] ++ [tail])) ::ₘ
          .node right (.branch tr R (ksR ++ [x])) ::ₘ O :=
      Multiset.mem_cons_of_mem (Multiset.mem_cons_self _ _)
    have hvalue : e.value = [] := h.branch_values hml e (by simp)
    have hadm : Admissible Γ.P e.key [] :=
      (h.admissible_of_mem hml e (by simp)).admissible.key
    have hlast : (es ++ [e])[es.length]? = some e := by simp
    -- The tail of the left node never moves: it stays there as a stale child.
    have hchild : (ks ++ [c] ++ [tail])[es.length]? = some c := by simp [← hks']
    have hstub : e.stub Γ.P = recordStub Γ.P e.key [] := by rw [Entry.stub_eq, hvalue]
    have hfit : Fits Γ.P (R ++ []) e.key [] := by
      unfold Fits
      rw [fill_append, fill_cons, fill_nil, hstub] at htotal
      rw [List.append_nil]
      omega
    have hslots : SlotFits Γ.P (R ++ []) := by
      refine slotFits_of_half Γ.hP (show 2 * fill Γ.P R ≤ Γ.P - 18 by omega) ?_
      rw [List.append_nil]
      exact Nat.le_succ _
    have hpages : entriesPages Γ.P (es ++ [e]) =
        entriesPages Γ.P es + recordPages Γ.P e.key [] := by
      simp [Entry.pages_eq, hvalue]
    have h₀ : Own Γ (b + entriesPages Γ.P es + recordPages Γ.P e.key []) r
        (.node right (.branch tr (R ++ []) (ksR ++ [x])) ::ₘ
          .node left (.branch tl (es ++ [e]) (ks ++ c :: [tail])) ::ₘ O) s := by
      rw [List.append_nil, Multiset.cons_swap]
      rw [hpages, ← Nat.add_assoc, List.append_assoc] at h
      exact h
    obtain ⟨s₁, bucket, run, hins, h₁⟩ := h₀.branchInsert_left' hright hksR hadm hfit hslots c
    rw [Multiset.cons_swap] at h₁
    obtain ⟨s₂, hpop, h₂⟩ := h₁.branchPop_left hleft hks'
    have hcontent : Entry.content ⟨e.key, [], bucket, run⟩ = e.content := by
      rw [Entry.content, Entry.content, hvalue]
    have hrate : Node.fillRate Γ.env left s₂ = (.ok (fill Γ.P es, Γ.P - 18), s₂) :=
      h₂.fillRate (Multiset.mem_cons_self _ _)
    -- One turn of the loop, up to the test: the key is appended on the right and popped.
    have hbegin : ∀ (rest : TxM Unit), (do
        let key ← Node.getKey Γ.env left es.length
        let child ← BranchNode.getLeftChild left es.length
        let success ← BranchNode.append Γ.env right key child false
        assert success
        BranchNode.pop Γ.env left false
        rest : TxM Unit) s = rest s₂ := fun rest => by
      have happend : BranchNode.append Γ.env right e.key c false s = (.ok true, s₁) := by
        unfold BranchNode.append
        rw [Exec.bind_of_ok (h.countOf hmr), hins]
      unfold assert
      rw [Exec.bind_of_ok (h.getKey hml hlast), Exec.bind_of_ok (h.getLeftChild hml hchild),
        Exec.bind_of_ok happend, Exec.require_bind rfl, Exec.bind_of_ok hpop]
    rw [show (es ++ [e]).length = es.length + 1 by simp]
    -- The loop ends at the first turn that leaves the left node at most half full.
    by_cases hhalf : Γ.P - 18 < 2 * fill Γ.P es
    · have h₂' : Own Γ (b + entriesPages Γ.P es) r
          (.node left (.branch tl es (ks ++ [tail])) ::ₘ .node right
            (.branch tr (R ++ [⟨e.key, [], bucket, run⟩]) ((ksR ++ [c]) ++ [x])) ::ₘ O) s₂ := by
        rw [List.append_assoc]
        exact h₂
      obtain ⟨_, s', hrun, es₁, e', es₂, M, ks₁, ks₂, hes, hks₁, hlen₁, hf1, hf2, hM, hown⟩ :=
        ih (R ++ [⟨e.key, [], bucket, run⟩]) ks (ksR ++ [c]) hks' (by simp [hksR]) h₂' (by
          rw [fill_append, fill_cons, fill_nil, hstub] at htotal
          rw [fill_append, fill_cons, fill_nil, Entry.stub_eq]
          simp only
          omega) hhalf
      refine Exec.Ok.intro () s' ?_ ⟨es₁, e', es₂ ++ [e],
        M ++ [⟨e.key, [], bucket, run⟩], ks₁, ks₂ ++ [c], by rw [hes]; simp, by rw [hks₁]; simp,
        hlen₁, hf1, hf2, hM.append (SameContent.cons hcontent (SameContent.refl [])), ?_⟩
      · unfold BTree.splitBranchLoop
        rw [hbegin, Exec.bind_of_ok hrate, if_neg (by simpa [Node.rateGt] using hhalf)]
        exact hrun
      · refine hown.perm ?_
        simp [List.append_assoc]
    · refine Exec.Ok.intro () s₂ ?_ ⟨es, e, [], [⟨e.key, [], bucket, run⟩], ks, [c],
        rfl, rfl, hks', by omega, hfull, SameContent.cons hcontent (SameContent.refl []), ?_⟩
      · unfold BTree.splitBranchLoop
        rw [hbegin, Exec.bind_of_ok hrate, if_pos (by simpa [Node.rateGt] using hhalf)]
        rfl
      · refine (h₂.room_mono _ (Nat.le_add_right _ _)).perm ?_
        simp [List.append_assoc]

end Loop

/-! ## The new key -/

section Insert

variable {Γ : PageScope} {b r : ℕ} {O : Multiset Obj} {s : TxState}
  {left right tl tr stale tail : Nat} {key : Bytes} {L M K₁ K₂ : List Entry} {A B T₁ T₂ : List Nat}

/-- The key goes to the side where its position is, provided that the right node takes it. -/
theorem splitBranchInsert_ok (hleft : ¬ Γ.keep left) (hright : ¬ Γ.keep right)
    (hadm : Admissible Γ.P key []) (child : Nat)
    (h : Own Γ (b + recordPages Γ.P key []) r
      (.node left (.branch tl L (A ++ [stale])) ::ₘ .node right (.branch tr M (B ++ [tail])) ::ₘ O)
        s)
    (hA : A.length = L.length) (hB : B.length = M.length) (hL : L ≠ []) (hM : M ≠ [])
    (hhalf : 2 * fill Γ.P L ≤ Γ.P - 18) (hkeys : L ++ M = K₁ ++ K₂) (hkids : A ++ B = T₁ ++ T₂)
    (hlen : T₁.length = K₁.length) (hfit : L.length < K₁.length → Fits Γ.P M key [])
    (hslots : SlotFits Γ.P M) :
    Exec.Ok (BTree.splitBranchInsert Γ.env left right K₁.length key child) s fun _ s' =>
      ∃ L' M' A' B' bucket run, L' ++ M' = K₁ ++ ⟨key, [], bucket, run⟩ :: K₂ ∧
        A' ++ B' = T₁ ++ child :: T₂ ∧ L' ≠ [] ∧ M' ≠ [] ∧ A'.length = L'.length ∧
        B'.length = M'.length ∧
        L'.length = (if L.length < K₁.length then L.length else L.length + 1) ∧
        Own Γ b r (.node left (.branch tl L' (A' ++ [stale])) ::ₘ
          .node right (.branch tr M' (B' ++ [tail])) ::ₘ O) s' := by
  have hcount : Node.countOf left s = (.ok L.length, s) := h.countOf (Multiset.mem_cons_self _ _)
  by_cases hi : L.length < K₁.length
  · -- the key belongs to the right node
    obtain ⟨K, rfl, rfl⟩ : ∃ K, K₁ = L ++ K ∧ M = K ++ K₂ := by
      obtain ⟨K, h1, h2⟩ | ⟨K, h1, h2⟩ := List.append_eq_append_iff.1 hkeys
      · exact ⟨K, h1, h2⟩
      · rw [h1, List.length_append] at hi
        omega
    obtain ⟨T, rfl, rfl⟩ : ∃ T, T₁ = A ++ T ∧ B = T ++ T₂ := by
      obtain ⟨T, h1, h2⟩ | ⟨T, h1, h2⟩ := List.append_eq_append_iff.1 hkids
      · exact ⟨T, h1, h2⟩
      · rw [hA.symm.trans (congrArg List.length h1)] at hi
        rw [List.length_append] at hi
        omega
    have hTK : T.length = K.length := by
      rw [List.length_append, List.length_append] at hlen
      omega
    have hsub : (L ++ K).length - L.length = K.length := by simp
    rw [Multiset.cons_swap, List.append_assoc] at h
    obtain ⟨s', bucket, run, hins, h'⟩ :=
      h.branchInsert_left' hright hTK hadm (hfit hi) hslots child
    refine Exec.Ok.intro () s' ?_ ⟨L, K ++ ⟨key, [], bucket, run⟩ :: K₂, A,
      T ++ child :: T₂, bucket, run, by simp, by simp, hL, by simp, hA, ?_, (if_pos hi).symm, ?_⟩
    · unfold BTree.splitBranchInsert
      rw [Exec.bind_of_ok hcount, if_pos hi, hsub, Exec.bind_of_ok hins]
      rfl
    · simp only [List.length_append, List.length_cons] at hB ⊢
      omega
    · rw [Multiset.cons_swap, List.append_assoc]
      exact h'
  · -- the key belongs to the left node
    obtain ⟨K, hK₂, hLK⟩ : ∃ K, K₂ = K ++ M ∧ L = K₁ ++ K := by
      obtain ⟨K, h1, h2⟩ | ⟨K, h1, h2⟩ := List.append_eq_append_iff.1 hkeys
      · have hK : K = [] := by
          rw [h1, List.length_append] at hi
          exact List.length_eq_zero_iff.1 (by omega)
        subst hK
        exact ⟨[], h2.symm, by simpa using h1.symm⟩
      · exact ⟨K, h2, h1⟩
    obtain ⟨T, hT₂, hAT⟩ : ∃ T, T₂ = T ++ B ∧ A = T₁ ++ T := by
      obtain ⟨T, h1, h2⟩ | ⟨T, h1, h2⟩ := List.append_eq_append_iff.1 hkids
      · have hT : T = [] := by
          rw [h1, List.length_append] at hlen
          exact List.length_eq_zero_iff.1 (by omega)
        subst hT
        exact ⟨[], h2.symm, by simpa using h1.symm⟩
      · exact ⟨T, h2, h1⟩
    rw [hLK, hAT, List.append_assoc] at h
    obtain ⟨s', bucket, run, hins, h'⟩ := h.branchInsert_left' hleft hlen hadm
      (fits_of_half Γ.hP (by rw [← hLK]; exact hhalf) key [])
      (slotFits_of_half Γ.hP hhalf (by rw [hLK]; exact Nat.le_succ _)) child
    refine Exec.Ok.intro () s' ?_ ⟨K₁ ++ ⟨key, [], bucket, run⟩ :: K, M,
      T₁ ++ child :: T, B, bucket, run, by simp [hK₂], by simp [hT₂], by simp, hM, ?_, hB, ?_, ?_⟩
    · unfold BTree.splitBranchInsert
      rw [Exec.bind_of_ok hcount, if_neg hi, Exec.bind_of_ok hins]
      rfl
    · rw [hLK, hAT] at hA
      simp only [List.length_append, List.length_cons] at hA ⊢
      omega
    · rw [if_neg hi, hLK]
      simp only [List.length_append, List.length_cons]
      omega
    · refine h'.perm ?_
      simp [List.append_assoc]

/-- The second try: the first key of the right node is appended to the left one with the stale tail
as its left child, and its own left child becomes the tail. -/
theorem splitBranchInsert_retry (hleft : ¬ Γ.keep left) (hright : ¬ Γ.keep right)
    (hadm : Admissible Γ.P key []) (child : Nat) {m : Entry} {Ms : List Entry}
    {c : Nat} {Bs : List Nat} (h : Own Γ (b + recordPages Γ.P key [] + m.pages Γ.P) r
      (.node left (.branch tl L (A ++ [stale])) ::ₘ
        .node right (.branch tr (m :: Ms) (c :: (Bs ++ [tail]))) ::ₘ O) s)
    (hA : A.length = L.length) (hB : Bs.length = Ms.length)
    (hhalf : 2 * fill Γ.P L ≤ Γ.P - 18) (hrest : 2 * fill Γ.P Ms ≤ Γ.P - 18) {i : Nat}
    (hi : L.length < i) (hle : i ≤ L.length + (m :: Ms).length)
    (hfit : ¬ Fits Γ.P (m :: Ms) key []) :
    Exec.Ok (BTree.splitBranchInsert Γ.env left right i key child) s fun _ s' =>
      ∃ m' M' B', m'.content = m.content ∧ M' ≠ [] ∧ M'.length = B'.length ∧
        Own Γ b r (.node left (.branch tl (L ++ [m']) ((A ++ [stale]) ++ [c])) ::ₘ
          .node right (.branch tr M' (B' ++ [tail])) ::ₘ O) s' := by
  have hcount : Node.countOf left s = (.ok L.length, s) := h.countOf (Multiset.mem_cons_self _ _)
  have hmr : Obj.node right (.branch tr (m :: Ms) (c :: (Bs ++ [tail]))) ∈
      .node left (.branch tl L (A ++ [stale])) ::ₘ
        .node right (.branch tr (m :: Ms) (c :: (Bs ++ [tail]))) ::ₘ O :=
    Multiset.mem_cons_of_mem (Multiset.mem_cons_self _ _)
  have hvalue : m.value = [] := h.branch_values hmr m List.mem_cons_self
  have hadm' : Admissible Γ.P m.key [] :=
    (h.admissible_of_mem hmr m List.mem_cons_self).admissible.key
  have hpages : m.pages Γ.P = recordPages Γ.P m.key [] := by rw [Entry.pages_eq, hvalue]
  have h₀ : Own Γ (b + recordPages Γ.P key [] + recordPages Γ.P m.key []) r
      (.node left (.branch tl (L ++ []) (A ++ stale :: [])) ::ₘ
        .node right (.branch tr (m :: Ms) (c :: (Bs ++ [tail]))) ::ₘ O) s := by
    rw [List.append_nil, ← hpages]
    exact h
  have hfitL : Fits Γ.P (L ++ []) m.key [] := fits_of_half Γ.hP (by rwa [List.append_nil]) m.key []
  have hslotsL : SlotFits Γ.P (L ++ []) :=
    slotFits_of_half Γ.hP hhalf (by rw [List.append_nil]; exact Nat.le_succ _)
  obtain ⟨_, s₁, happend, rfl, bucket, run, h₁⟩ :=
    h₀.branchInsert_right hleft hA hadm' hfitL hslotsL c
  rw [Multiset.cons_swap] at h₁
  obtain ⟨s₂, hdel, h₂⟩ := h₁.branchDelete_first hright
  -- the position of the key in what is left of the right node
  obtain ⟨K₁, K₂, hK, hKlen⟩ := ListAt.exists_split_le (l := Ms) (i := i - (L.length + 1))
    (by simp only [List.length_cons] at hle; omega)
  obtain ⟨T₁, T₂, hT, hTlen⟩ := ListAt.exists_split_le (l := Bs) (i := i - (L.length + 1))
    (by simp only [List.length_cons] at hle; omega)
  rw [hK] at h₂ hrest
  rw [hT, List.append_assoc] at h₂
  obtain ⟨s₃, bucket', run', hins, h₃⟩ := h₂.branchInsert_left' hright (hTlen.trans hKlen.symm) hadm
    (fits_of_half Γ.hP hrest key []) (slotFits_of_half Γ.hP hrest (Nat.le_succ _)) child
  have hcount₂ : Node.countOf left s₂ = (.ok (L.length + 1), s₂) := by
    rw [h₂.countOf (Multiset.mem_cons_of_mem (Multiset.mem_cons_self _ _))]
    simp
  refine Exec.Ok.intro () s₃ ?_ ⟨⟨m.key, [], bucket, run⟩,
    K₁ ++ ⟨key, [], bucket', run'⟩ :: K₂, T₁ ++ child :: T₂, ?_, by simp, ?_, ?_⟩
  · have hfirst : Node.getKey Γ.env right 0 s = (.ok m.key, s) := h.getKey hmr rfl
    have hchild : BranchNode.getLeftChild right 0 s = (.ok c, s) := h.getLeftChild hmr rfl
    have hpush : BranchNode.append Γ.env left m.key c true s = (.ok true, s₁) := by
      unfold BranchNode.append
      rw [Exec.bind_of_ok hcount, happend]
    have hrefuse : BranchNode.insert Γ.env right (i - L.length) key child false s =
        (.ok false, s) := by
      obtain ⟨J₁, J₂, hJ, hJlen⟩ :=
        ListAt.exists_split_le (l := m :: Ms) (i := i - L.length) (by omega)
      rw [Multiset.cons_swap, hJ] at h
      rw [hJ] at hfit
      rw [← hJlen]
      exact h.branchInsert_refused hfit child
    unfold BTree.splitBranchInsert assert
    rw [Exec.bind_of_ok hcount, if_pos hi, Exec.bind_of_ok hrefuse]
    simp only [Bool.not_false, if_true]
    rw [Exec.bind_of_ok hfirst, Exec.bind_of_ok hchild, Exec.bind_of_ok hpush,
      Exec.require_bind rfl,
        Exec.bind_of_ok (show BranchNode.delete Γ.env right 0 false s₁ = _ from hdel),
      Exec.bind_of_ok hcount₂, ← hKlen, Exec.bind_of_ok hins]
    rfl
  · rw [Entry.content, Entry.content, hvalue]
  · simp [hKlen, hTlen, hK, hT] at *
    omega
  · refine h₃.perm ?_
    rw [Multiset.cons_swap]
    simp [List.append_assoc]

end Insert

/-! ## The key that rises -/

section Rise

variable {Γ : PageScope} {b r : ℕ} {O : Multiset Obj} {s : TxState}
  {left right tl tr stale tail : Nat} {L M : List Entry} {A B : List Nat}

/-- The last key of the left node rises, and with it the stale tail goes; or the first key of the
right node rises, and its left child becomes the tail of the left node. -/
theorem splitBranchRise_ok (hleft : ¬ Γ.keep left) (hright : ¬ Γ.keep right)
    (h : Own Γ b r
      (.node left (.branch tl L (A ++ [stale])) ::ₘ .node right (.branch tr M (B ++ [tail])) ::ₘ O)
        s)
    (hA : A.length = L.length) (hB : B.length = M.length) (hL : L ≠ []) (hM : M ≠ [])
    (hsum : 3 ≤ L.length + M.length) :
    Exec.Ok (BTree.splitBranchRise Γ.env left right) s fun up s' => ∃ L' u M' kL kR,
      L' ++ u :: M' = L ++ M ∧ up = u.key ∧ kL ++ kR = A ++ B ++ [tail] ∧ L' ≠ [] ∧ M' ≠ [] ∧
      kL.length = L'.length + 1 ∧ L'.length = (if 2 ≤ L.length then L.length - 1 else L.length) ∧
      (2 ≤ L.length → kL = A ∧ kR = B ++ [tail]) ∧
      Own Γ b r (.node left (.branch tl L' kL) ::ₘ .node right (.branch tr M' kR) ::ₘ O) s' := by
  have hml := Multiset.mem_cons_self (Obj.node left (.branch tl L (A ++ [stale])))
    (.node right (.branch tr M (B ++ [tail])) ::ₘ O)
  have hmr : Obj.node right (.branch tr M (B ++ [tail])) ∈
      .node left (.branch tl L (A ++ [stale])) ::ₘ .node right (.branch tr M (B ++ [tail])) ::ₘ O :=
    Multiset.mem_cons_of_mem (Multiset.mem_cons_self _ _)
  have hcountL : Node.countOf left s = (.ok L.length, s) := h.countOf hml
  have hcountR : Node.countOf right s = (.ok M.length, s) := h.countOf hmr
  have hMpos : 1 ≤ M.length := List.length_pos_iff.2 hM
  -- `Split` takes the key from the left node when that has two, and else from the right node.
  by_cases htwo : 2 ≤ L.length
  · obtain rfl | ⟨L, u, rfl⟩ := List.eq_nil_or_concat' L
    · exact absurd rfl hL
    obtain rfl | ⟨A, a, rfl⟩ := List.eq_nil_or_concat' A
    · simp at hA
    have hA' : A.length = L.length := by simpa using hA
    have hkey : Node.getKey Γ.env left L.length s = (.ok u.key, s) := h.getKey hml (by simp)
    -- `Pop` with `right_child` drops the stale tail, and the left child of the key is the tail
    -- then.
    rw [List.append_assoc] at h
    obtain ⟨s', hpop, h'⟩ := h.branchPop_right hleft hA'
    refine Exec.Ok.intro u.key s' ?_ ⟨L, u, M, A ++ [a], B ++ [tail], by simp, rfl, by simp, ?_, hM,
      by simp [hA'], by rw [if_pos htwo]; simp, fun _ => ⟨rfl, rfl⟩, h'⟩
    · unfold BTree.splitBranchRise assert
      rw [Exec.bind_of_ok hcountL, Exec.bind_of_ok hcountR, if_pos htwo, Exec.require_bind hMpos,
        List.length_append, List.length_singleton, Nat.add_sub_cancel, Exec.bind_of_ok hkey,
        Exec.bind_of_ok hpop]
      rfl
    · rintro rfl
      simp at htwo
  · have hM2 : 2 ≤ M.length := by omega
    cases M with
    | nil => exact absurd rfl hM
    | cons m M =>
      cases B with
      | nil => simp at hB
      | cons c B =>
        have hkey : Node.getKey Γ.env right 0 s = (.ok m.key, s) := h.getKey hmr rfl
        have hchild : BranchNode.getLeftChild right 0 s = (.ok c, s) := h.getLeftChild hmr rfl
        rw [Multiset.cons_swap, List.cons_append] at h
        obtain ⟨s₁, hdel, h₁⟩ := h.branchDelete_first hright
        -- The left child of the key that rises overwrites the stale tail of the left node.
        rw [Multiset.cons_swap] at h₁
        obtain ⟨s₂, hset, h₂⟩ := h₁.setTailChild hleft c
        refine Exec.Ok.intro m.key s₂ ?_ ⟨L, m, M, A ++ [c], B ++ [tail], rfl, rfl, by simp, hL, ?_,
          by simp [hA], (if_neg htwo).symm, fun h => absurd h htwo, h₂⟩
        · unfold BTree.splitBranchRise assert
          rw [Exec.bind_of_ok hcountL, Exec.bind_of_ok hcountR, if_neg htwo, Exec.require_bind hM2,
            Exec.bind_of_ok hkey, Exec.bind_of_ok hchild, Exec.bind_of_ok hdel,
              Exec.bind_of_ok hset]
          rfl
        · rintro rfl
          simp at hM2

end Rise

/-! ## The split -/

/-- The insertion step of a split takes its second try: the new key at position `i` belongs to the
right node, and that node has no room for it. -/
def SplitRefuses (P : Nat) (es : List Entry) (i : Nat) (key : Bytes) : Prop :=
  splitCount P 0 es < i ∧ ¬ Fits P (es.drop (splitCount P 0 es)) key []

instance (P : Nat) (es : List Entry) (i : Nat) (key : Bytes) :
    Decidable (SplitRefuses P es i key) :=
  inferInstanceAs (Decidable (_ ∧ _))

/-- The position of the key that rises, when `k` keys stay in the left node and a key is inserted at
position `i`. -/
def riseIndex (k i : Nat) : Nat :=
  let n := if k < i then k else k + 1
  if 2 ≤ n then n - 1 else n

/-- The key that rises from a branch with the keys `es` into which `key` is inserted at
position `i`. -/
def risingKey (P : Nat) (es : List Entry) (i : Nat) (key : Bytes) : Bytes :=
  ((es.map Entry.key).insertIdx i key).getD (riseIndex (splitCount P 0 es) i) []

/-- The rising key is the one between the two halves. -/
theorem risingKey_eq {P : Nat} {es₁ K₁ K₂ L M : List Entry} {e u : Entry} {es₂ : List Entry}
    {key : Bytes} (hes : K₁ ++ K₂ = es₁ ++ e :: es₂) (hhalf : 2 * fill P es₁ ≤ P - 18)
    (hover : P - 18 < 2 * fill P (es₁ ++ [e]))
    (hkeys : SameContent (L ++ u :: M) (K₁ ++ ⟨key, [], false, 0⟩ :: K₂))
    (hL : L.length = riseIndex es₁.length K₁.length) :
    u.key = risingKey P (K₁ ++ K₂) K₁.length key := by
  unfold risingKey
  rw [hes, splitCount_eq es₂ es₁ 0 (by omega) (by omega), ← hes, ← hL]
  exact hkeys.key_eq_getD

section Split

variable {Γ : PageScope} {b r : ℕ} {O : Multiset Obj} {s : TxState} {left right tl c tail : Nat}
  {key : Bytes} {K₁ K₂ L M : List Entry} {T₁ T₂ A B : List Nat}

/-- What a split leaves behind: a left node, the key that rises, and a right node. -/
structure SplitResult (Γ : PageScope) (b r : ℕ) (O : Multiset Obj) (left tl : Nat)
    (res : Bytes × Nat) (s : TxState) (L : List Entry) (u : Entry) (M : List Entry)
    (kL kR : List Nat) : Prop where
  key_eq : res.1 = u.key
  fresh : ¬ Γ.keep res.2
  left_ne : L ≠ []
  right_ne : M ≠ []
  left_kids : kL.length = L.length + 1
  admissible : Admissible Γ.P u.key []
  own : Own Γ b r (.node left (.branch tl L kL) ::ₘ .node res.2 (.branch Γ.txid M kR) ::ₘ O) s

/-- Insertion and choice of the rising key when the right node has room, or the key belongs
to the left. -/
theorem splitBranchEnd_ok (hleft : ¬ Γ.keep left) (hright : ¬ Γ.keep right)
    (hadm : Admissible Γ.P key []) (child : Nat)
    (h : Own Γ (b + recordPages Γ.P key []) r
      (.node left (.branch tl L (A ++ [tail])) ::ₘ
        .node right (.branch Γ.txid M (B ++ [tail])) ::ₘ O) s)
    (hA : A.length = L.length) (hB : B.length = M.length) (hL : L ≠ []) (hM : M ≠ [])
    (hhalf : 2 * fill Γ.P L ≤ Γ.P - 18) (hkeys : L ++ M = K₁ ++ K₂) (hkids : A ++ B = T₁ ++ T₂)
    (hlen : T₁.length = K₁.length) (hfit : L.length < K₁.length → Fits Γ.P M key [])
    (hslots : SlotFits Γ.P M) : Exec.Ok (do
        BTree.splitBranchInsert Γ.env left right K₁.length key child
        let upKey ← BTree.splitBranchRise Γ.env left right
        return (upKey, right) : TxM (Bytes × Nat)) s fun res s' => ∃ L' u M' kL kR,
      SplitResult Γ b r O left tl res s' L' u M' kL kR ∧
      SameContent (L' ++ u :: M') (K₁ ++ ⟨key, [], false, 0⟩ :: K₂) ∧
      kL ++ kR = T₁ ++ child :: (T₂ ++ [tail]) ∧ L'.length = riseIndex L.length K₁.length := by
  obtain ⟨_, s₁, hinsert, L', M', A', B', bucket, run, hk, ht, hL', hM', hA', hB', hlenL', h₁⟩ :=
    splitBranchInsert_ok hleft hright hadm child h hA hB hL hM hhalf hkeys hkids hlen hfit hslots
  -- Two keys and the new one make three, so one may rise and both sides keep one.
  have hsum : 3 ≤ L'.length + M'.length := by
    have e1 := congrArg List.length hk
    have e2 := congrArg List.length hkeys
    have e3 := List.length_pos_iff.2 hL
    have e4 := List.length_pos_iff.2 hM
    simp only [List.length_append, List.length_cons] at e1 e2
    omega
  obtain ⟨up, s₂, hrise, L'', u, M'', kL, kR, hu, rfl, hkk, hL'', hM'', hlenK, hlenL'', -, h₂⟩ :=
    splitBranchRise_ok hleft hright h₁ hA' hB' hL' hM' hsum
  refine Exec.Ok.intro (u.key, right) s₂ ?_ ⟨L'', u, M'', kL, kR,
    ⟨rfl, hright, hL'', hM'', hlenK, ?_, h₂⟩, ?_, ?_, ?_⟩
  · rw [Exec.bind_of_ok hinsert, Exec.bind_of_ok hrise]
    rfl
  · have hmem : u ∈ L' ++ M' := by
      rw [← hu]
      simp
    rcases List.mem_append.1 hmem with hmem | hmem
    · exact (h₁.admissible_of_mem (Multiset.mem_cons_self _ _) u hmem).admissible.key
    · exact (h₁.admissible_of_mem (Multiset.mem_cons_of_mem (Multiset.mem_cons_self _ _)) u
        hmem).admissible.key
  · rw [hu, hk]
    exact (SameContent.refl K₁).append (SameContent.cons rfl (SameContent.refl K₂))
  · rw [hkk, ht, List.append_assoc]
    rfl
  · rw [hlenL'', hlenL']
    rfl

/-- Insertion and choice of the rising key when the second try is made: the tail child ends up
in both nodes. -/
theorem splitBranchEnd_retry (hleft : ¬ Γ.keep left) (hright : ¬ Γ.keep right)
    (hadm : Admissible Γ.P key []) (child : Nat) {m : Entry} {Ms : List Entry} {Bs : List Nat}
    (h : Own Γ (b + recordPages Γ.P key [] + m.pages Γ.P) r
      (.node left (.branch tl L (A ++ [tail])) ::ₘ
        .node right (.branch Γ.txid (m :: Ms) (c :: (Bs ++ [tail]))) ::ₘ O) s)
    (hA : A.length = L.length) (hB : Bs.length = Ms.length) (hL : L ≠ [])
    (hhalf : 2 * fill Γ.P L ≤ Γ.P - 18) (hrest : 2 * fill Γ.P Ms ≤ Γ.P - 18) {i : Nat}
    (hi : L.length < i) (hle : i ≤ L.length + (m :: Ms).length)
    (hfit : ¬ Fits Γ.P (m :: Ms) key []) : Exec.Ok (do
        BTree.splitBranchInsert Γ.env left right i key child
        let upKey ← BTree.splitBranchRise Γ.env left right
        return (upKey, right) : TxM (Bytes × Nat)) s fun res s' => ∃ L' u M' kL kR,
      SplitResult Γ b r O left tl res s' L' u M' kL kR ∧ ∃ x, x ∈ kL ∧ x ∈ kR := by
  obtain ⟨_, s₁, hinsert, m', M', B', -, hM', hB', h₁⟩ :=
    splitBranchInsert_retry hleft hright hadm child h hA hB hhalf hrest hi hle hfit
  have hLpos := List.length_pos_iff.2 hL
  have hMpos := List.length_pos_iff.2 hM'
  have hsum : 3 ≤ (L ++ [m']).length + M'.length := by
    rw [List.length_append, List.length_singleton]
    omega
  obtain ⟨up, s₂, hrise, L'', u, M'', kL, kR, hu, rfl, -, hL'', hM'', hlenK, -, hk, h₂⟩ :=
    splitBranchRise_ok hleft hright h₁ (by simp [hA]) hB'.symm (by simp) hM' hsum
  obtain ⟨rfl, rfl⟩ := hk (by rw [List.length_append, List.length_singleton]; omega)
  refine Exec.Ok.intro (u.key, right) s₂ ?_ ⟨L'', u, M'', A ++ [tail], B' ++ [tail],
    ⟨rfl, hright, hL'', hM'', hlenK, ?_, h₂⟩, tail, by simp, by simp⟩
  · rw [Exec.bind_of_ok hinsert, Exec.bind_of_ok hrise]
    rfl
  · have hmem : u ∈ (L ++ [m']) ++ M' := by
      rw [← hu]
      simp
    rcases List.mem_append.1 hmem with hmem | hmem
    · exact (h₁.admissible_of_mem (Multiset.mem_cons_self _ _) u hmem).admissible.key
    · exact (h₁.admissible_of_mem (Multiset.mem_cons_of_mem (Multiset.mem_cons_self _ _)) u
        hmem).admissible.key

/-- **`BTree::Split(BranchNode*)`.** The child `c` of the branch has been split into `c` and
`rc`, with `key` between them. Without the second try the two halves and the key that rises hold
the old keys and children with `key` and `rc` in their places; with it, both halves end up with
one child in common. -/
theorem splitBranch_ok (hleft : ¬ Γ.keep left) (hadm : Admissible Γ.P key []) (rc : Nat)
    (h : Own Γ (b + (1 + 2 * entriesPages Γ.P (K₁ ++ K₂) + recordPages Γ.P key [])) r
      (.node left (.branch tl (K₁ ++ K₂) (T₁ ++ c :: T₂)) ::ₘ O) s)
    (hlen : T₁.length = K₁.length) (hfull : ¬ Fits Γ.P (K₁ ++ K₂) key []) :
    Exec.Ok (BTree.splitBranch Γ.env left K₁.length key rc) s fun res s' => ∃ L u M kL kR,
      SplitResult Γ b r O left tl res s' L u M kL kR ∧
        (¬ SplitRefuses Γ.P (K₁ ++ K₂) K₁.length key →
          SameContent (L ++ u :: M) (K₁ ++ ⟨key, [], false, 0⟩ :: K₂) ∧
            kL ++ kR = T₁ ++ c :: rc :: T₂ ∧ u.key = risingKey Γ.P (K₁ ++ K₂) K₁.length key) ∧
        (SplitRefuses Γ.P (K₁ ++ K₂) K₁.length key → ∃ x, x ∈ kL ∧ x ∈ kR) := by
  have hfill := full_of_not_fits Γ.hP hfull
  have htwo := two_le_length Γ.hP hfill
  have hle := h.fill_le_of_mem (Multiset.mem_cons_self _ _)
  have hkids := h.branch_kids_length (Multiset.mem_cons_self _ _)
  have hcount : Node.countOf left s = (.ok (K₁ ++ K₂).length, s) :=
    h.countOf (Multiset.mem_cons_self _ _)
  obtain ⟨right, s₁, halloc, h₁⟩ := Own.alloc (n := 1)
    (h.room_mono (b + (2 * entriesPages Γ.P (K₁ ++ K₂) + recordPages Γ.P key []) + 1) (by omega))
  obtain ⟨s₂, hbuild, hright, h₂, -⟩ := h₁.buildBranch kPageInvalidId
  rw [Multiset.cons_swap] at h₂
  have hrate : Node.fillRate Γ.env left s₂ = (.ok (fill Γ.P (K₁ ++ K₂), Γ.P - 18), s₂) :=
    h₂.fillRate (Multiset.mem_cons_self _ _)
  have hchild : BranchNode.getLeftChild left K₁.length s₂ = (.ok c, s₂) :=
    h₂.getLeftChild (Multiset.mem_cons_self _ _) (by simp [← hlen])
  obtain ⟨s₃, hset, h₃⟩ := h₂.setLeftChild hleft rc
  obtain ⟨ks, tail, hks⟩ : ∃ ks tail, T₁ ++ rc :: T₂ = ks ++ [tail] := by
    obtain hnil | ⟨ks, tail, hks⟩ := List.eq_nil_or_concat' (T₁ ++ rc :: T₂)
    · simp at hnil
    · exact ⟨ks, tail, hks⟩
  have hkslen : ks.length = (K₁ ++ K₂).length := by
    have := congrArg List.length hks
    simp only [List.length_append, List.length_cons, List.length_nil] at this hkids ⊢
    omega
  rw [hks] at h₃
  obtain ⟨_, s₄, hloop, es₁, e, es₂, M, ks₁, ks₂, hes, hks', hks₁, hhalf, hover, hM, h₄⟩ :=
    splitBranchLoop_ok (b := b + (entriesPages Γ.P (K₁ ++ K₂) + recordPages Γ.P key [])) hleft
      hright (K₁ ++ K₂) [] ks [] hkslen rfl (h₃.room_mono _ (by omega)) (by simpa using hle) hfill
  rw [Multiset.cons_swap] at h₄
  obtain ⟨s₅, hreverse, h₅⟩ := h₄.reverseSlots_branch hright
  rw [List.nil_append, List.nil_append, List.reverse_reverse, List.reverse_reverse,
    Multiset.cons_swap] at h₅
  have hrate₅ : Node.fillRate Γ.env left s₅ = (.ok (fill Γ.P es₁, Γ.P - 18), s₅) :=
    h₅.fillRate (Multiset.mem_cons_self _ _)
  have htail : BranchNode.getTailChild left s₅ = (.ok tail, s₅) :=
    h₅.getTailChild (Multiset.mem_cons_self _ _)
  rw [Multiset.cons_swap] at h₅
  obtain ⟨s₆, hset', h₆⟩ := h₅.setTailChild hright tail
  rw [Multiset.cons_swap] at h₆
  -- so far: `es₁` and `M` are the divided keys, `ks₁` and `ks₂` their left children
  have hks₂ : ks₂.length = M.length := by
    have h1 := hM.length_eq
    have h2 := congrArg List.length hes
    have h3 := congrArg List.length hks'
    simp only [List.length_append, List.length_cons] at h1 h2 h3 hkslen
    omega
  have hne : es₁ ≠ [] := ne_nil_of_over Γ.hP hover
  have hMne : M ≠ [] := by
    rintro rfl
    simpa using hM.length_eq
  have hstart : BTree.splitBranch Γ.env left K₁.length key rc s = (do
      BTree.splitBranchInsert Γ.env left right K₁.length key c
      let upKey ← BTree.splitBranchRise Γ.env left right
      return (upKey, right) : TxM (Bytes × Nat)) s₆ := by
    unfold BTree.splitBranch assert
    rw [Exec.bind_of_ok hcount, Exec.require_bind (by simp), Exec.bind_of_ok halloc,
      Exec.bind_of_ok hbuild, Exec.require_bind htwo, Exec.bind_of_ok hrate,
      Exec.require_bind (by simpa [Node.rateGt] using hfill), Exec.bind_of_ok hchild, ← hlen,
      Exec.bind_of_ok hset, Exec.bind_of_ok hloop, Exec.bind_of_ok hreverse, Exec.bind_of_ok hrate₅,
      Exec.require_bind (by simpa [Node.rateGt] using hhalf), Exec.bind_of_ok htail,
      Exec.bind_of_ok hset']
  have hsame : SameContent (es₁ ++ M) (K₁ ++ K₂) := by
    rw [hes]
    exact (SameContent.refl es₁).append hM
  have hfillM : fill Γ.P M = fill Γ.P (e :: es₂) := hM.fill_eq
  have hlenM := hsame.length_eq
  have hiff : SplitRefuses Γ.P (K₁ ++ K₂) K₁.length key ↔
      es₁.length < K₁.length ∧ ¬ Fits Γ.P M key [] := by
    unfold SplitRefuses
    rw [hes, splitCount_eq es₂ es₁ 0 (by omega) (by omega), List.drop_left]
    unfold Fits
    rw [hfillM]
  obtain ⟨m, Ms, rfl⟩ : ∃ m Ms, M = m :: Ms := List.exists_cons_of_ne_nil hMne
  have hrest : 2 * fill Γ.P Ms ≤ Γ.P - 18 := by
    have h1 : fill Γ.P Ms = fill Γ.P es₂ := SameContent.fill_eq (List.cons.inj hM).2
    rw [hes] at hle
    rw [fill_append, fill_cons] at hle
    rw [fill_append, fill_cons, fill_nil] at hover
    omega
  by_cases hrefuse : es₁.length < K₁.length ∧ ¬ Fits Γ.P (m :: Ms) key []
  · obtain ⟨x, Bs, rfl⟩ : ∃ x Bs, ks₂ = x :: Bs := by
      refine List.exists_cons_of_ne_nil ?_
      rintro rfl
      simp at hks₂
    have hpages : m.pages Γ.P ≤ entriesPages Γ.P (K₁ ++ K₂) := by
      rw [← hsame.entriesPages_eq, entriesPages_append, entriesPages_cons]
      omega
    obtain ⟨res, s', hrun, L, u, M', kL, kR, hres, hdup⟩ :=
      splitBranchEnd_retry (b := b) hleft hright hadm c
      (h₆.room_mono _ (by omega)) hks₁ (by simpa using hks₂) hne hhalf hrest hrefuse.1
      (by simp only [List.length_append, List.length_cons] at hlenM ⊢; omega) hrefuse.2
    exact Exec.Ok.intro res s' (hstart.trans hrun) ⟨L, u, M', kL, kR, hres,
      fun hnot => absurd (hiff.2 hrefuse) hnot, fun _ => hdup⟩
  · obtain ⟨K₁', K₂', hK, hK₁, hK₂⟩ := hsame.exists_append
    obtain ⟨U, hU, hUtail⟩ : ∃ U, ks₁ ++ ks₂ = T₁ ++ U ∧ rc :: T₂ = U ++ [tail] := by
      rw [← hks']
      obtain ⟨U, h1, h2⟩ | ⟨U, h1, h2⟩ := List.append_eq_append_iff.1 hks
      · exact ⟨U, h1, h2⟩
      · cases U with
        | nil => exact ⟨[], by simpa using h1.symm, by simpa using h2.symm⟩
        | cons y U =>
          have := congrArg List.length h2
          simp at this
    obtain ⟨res, s', hrun, L, u, M', kL, kR, hres, hkeys, hkids', hlenL⟩ :=
      splitBranchEnd_ok (b := b) hleft hright hadm c (h₆.room_mono _ (by omega)) hks₁ hks₂ hne hMne
        hhalf hK hU (hlen.trans hK₁.length_eq.symm)
      (fun hlt => by
        by_contra hnot
        exact hrefuse ⟨by rwa [← hK₁.length_eq], hnot⟩)
          (slotFits_of_half Γ.hP hrest (Nat.le_refl _))
    rw [hK₁.length_eq] at hrun
    refine Exec.Ok.intro res s' (hstart.trans hrun) ⟨L, u, M', kL, kR, hres, fun _ => ⟨?_, ?_, ?_⟩,
      fun h => absurd (hiff.1 h) hrefuse⟩
    · exact hkeys.trans (hK₁.append (SameContent.cons rfl hK₂))
    · rw [hkids', hUtail]
    · exact risingKey_eq hes hhalf hover (hkeys.trans (hK₁.append (SameContent.cons rfl hK₂)))
        (by rw [hlenL, hK₁.length_eq])

end Split

end AtomKV
