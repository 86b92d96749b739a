import AtomKV.Siblings

/-!
# Merging two nodes

`BTree::Merge` appends the records of the right node to the left one and frees the right page. The
overflow pages of the right node's records are not freed: the left node stores each record anew. Two
leaves that are merged fit into one. Two branches take the separator between them as well, and when
that is too much an assertion fails.
-/

set_option autoImplicit false

namespace AtomKV

namespace Own

variable {Γ : PageScope} {b r : ℕ} {O : Multiset Obj} {s : TxState} {q t : Nat}

/-! ## What is left of a node -/

/-- Runs that nothing refers to any more. -/
theorem dropRecords (es : List Entry) (h : Own Γ b r (recordsOf Γ.P es + O) s) :
    ∃ G, JunkOnly G ∧ Own Γ b r (G + O) s := by
  induction es generalizing O with
  | nil => exact ⟨0, JunkOnly.zero, h.perm (by rw [recordsOf_nil])⟩
  | cons e es ih =>
    by_cases hover : Node.maxInline Γ.P < e.size
    · rw [recordsOf_cons_overflow Γ.P hover, Multiset.cons_add] at h
      have hjunk :=
        h.toJunk (q := e.run) (n := Pager.getPageCount Γ.P (e.key ++ e.value).length) fun _ => rfl
      obtain ⟨G, hG, h'⟩ :=
        ih (O := .junk e.run (Pager.getPageCount Γ.P (e.key ++ e.value).length) ::ₘ O)
        (hjunk.perm (by rw [Multiset.add_cons]))
      refine ⟨.junk e.run _ ::ₘ G, fun o ho => ?_,
        h'.perm (by rw [Multiset.add_cons, Multiset.cons_add])⟩
      rcases Multiset.mem_cons.1 ho with rfl | ho
      · exact ⟨_, _, rfl⟩
      · exact hG o ho
    · rw [recordsOf_cons_inline Γ.P hover] at h
      exact ih h

/-- The page of a node is freed, and the runs of its records stay behind. -/
theorem freeNode {v : NodeView} (h : Own Γ b r (.node q v ::ₘ O) s) :
    ∃ s' G, Pager.free q 1 s = (.ok (), s') ∧ JunkOnly G ∧ Own Γ b r (G + O) s' := by
  obtain ⟨n, -, hown⟩ := h.unfold_node
  have hle := (hown.run_le (q := q) (n := 1) (fun _ => rfl) Nat.one_pos).2
  obtain ⟨s', hfree, h', -⟩ := (hown.toJunk (q := q) (n := 1) fun _ => rfl).free hle
  obtain ⟨G, hG, h''⟩ := h'.dropRecords
  exact ⟨s', G, hfree, hG, h''⟩

/-! ## Leaves -/

/-- A record of another leaf is appended with its bucket flag. -/
theorem leafAppend_record {p tp i : Nat} {es es' : List Entry} {e : Entry}
    (h : Own Γ (b + e.pages Γ.P) r (.node q (.leaf t es) ::ₘ O) s) (hq : ¬ Γ.keep q)
    (hm : Obj.node p (.leaf tp es') ∈ O) (he : es'[i]? = some e) (hfit : Fits Γ.P es e.key e.value)
    (hslots : SlotFits Γ.P es) :
    ∃ s' run, Own Γ b r (.node q (.leaf t (es ++ [{ e with run := run }])) ::ₘ O) s' ∧
      ∀ {α : Type} (rest : TxM α), (do
        let key ← Node.getKey Γ.env p i
        let value ← LeafNode.getValue Γ.env p i
        let success ← LeafNode.append Γ.env q key value
        assert success
        let count ← Node.countOf q
        let b ← LeafNode.isBucket p i
        LeafNode.setIsBucket q (count - 1) b
        rest : TxM α) s = rest s' := by
  have hm' : Obj.node p (.leaf tp es') ∈ .node q (.leaf t es) ::ₘ O := Multiset.mem_cons_of_mem hm
  have hadm := (h.admissible_of_mem hm' e (List.mem_of_getElem? he)).admissible
  obtain ⟨s₁, s₂, run, old, hins, h₁, hset, h₂⟩ := Own.leafInsert_flag
    (show Own Γ (b + recordPages Γ.P e.key e.value) r (.node q (.leaf t (es ++ [])) ::ₘ O) s from
      h.perm (by rw [List.append_nil])) hq hadm (by rw [List.append_nil]; exact hfit)
      (by rw [List.append_nil]; exact hslots) e.isBucket
  refine ⟨s₂, run, h₂, fun rest => ?_⟩
  have happend : LeafNode.append Γ.env q e.key e.value s = (.ok true, s₁) := by
    unfold LeafNode.append
    rw [Exec.bind_of_ok (h.countOf (Multiset.mem_cons_self _ _)), hins]
  unfold assert
  rw [Exec.bind_of_ok (h.getKey hm' he), Exec.bind_of_ok (h.getValue hm' he),
    Exec.bind_of_ok happend, Exec.require_bind rfl,
      Exec.bind_of_ok (h₁.countOf (Multiset.mem_cons_self _ _)),
    Exec.bind_of_ok (h₁.isBucket (Multiset.mem_cons_of_mem hm) he),
    show (NodeView.leaf t (es ++ [⟨e.key, e.value, old, run⟩])).entries.length - 1 =
      es.length by simp,
    Exec.bind_of_ok hset]

end Own

section Leaf

variable {Γ : PageScope} {b r : ℕ} {O : Multiset Obj} {s : TxState} {left right tl tr : Nat}

theorem mergeLeafLoop_ok (hleft : ¬ Γ.keep left) (L M R : List Entry)
    (h : Own Γ (b + entriesPages Γ.P R) r
      (.node left (.leaf tl L) ::ₘ .node right (.leaf tr (M ++ R)) ::ₘ O) s)
    (hfit : fill Γ.P L + fill Γ.P R ≤ Γ.P - 18) (hslots : 18 + 8 * (L.length + R.length) < Γ.P) :
    Exec.Ok (BTree.mergeLeafLoop Γ.env left right R.length M.length) s fun _ s' => ∃ R', SameData R'
      R ∧ Own Γ b r (.node left (.leaf tl (L ++ R')) ::ₘ .node right (.leaf tr (M ++ R)) ::ₘ O)
        s' := by
  induction R generalizing L M s with
  | nil => exact Exec.Ok.intro () s rfl ⟨[], SameData.refl [], h.perm (by rw [List.append_nil L])⟩
  | cons e R ih =>
    have hpages : entriesPages Γ.P (e :: R) = entriesPages Γ.P R + e.pages Γ.P := by
      simp [add_comm]
    rw [fill_cons] at hfit
    obtain ⟨s₁, run, h₁, hrun⟩ := Own.leafAppend_record (i := M.length) (e := e)
      (h.room_mono (b + entriesPages Γ.P R + e.pages Γ.P) (by omega)) hleft
      (Multiset.mem_cons_self _ _) (by simp) (by
        unfold Fits
        rw [← Entry.stub_eq]
        omega) (by
        rw [List.length_cons] at hslots
        unfold SlotFits
        omega)
    have hmove : M ++ e :: R = (M ++ [e]) ++ R := by simp
    rw [hmove] at h₁
    have hstep : fill Γ.P (L ++ [{ e with run := run }]) = fill Γ.P L + (8 + e.stub Γ.P) := by
      rw [fill_append, fill_cons, fill_nil]
      rfl
    obtain ⟨_, s', hrest, R', hR', h'⟩ := ih (L ++ [{ e with run := run }]) (M ++ [e]) h₁ (by omega)
      (by simp only [List.length_append, List.length_cons, List.length_nil] at hslots ⊢; omega)
    rw [List.length_append, List.length_singleton] at hrest
    refine Exec.Ok.intro () s' ?_ ⟨{ e with run := run } :: R', SameData.cons rfl hR', ?_⟩
    · rw [List.length_cons]
      unfold BTree.mergeLeafLoop
      rw [hrun]
      exact hrest
    · rw [hmove]
      refine h'.perm ?_
      rw [List.append_assoc, List.singleton_append]

/-- **`BTree::Merge(LeafNode)`.** -/
theorem mergeLeaf_ok (hleft : ¬ Γ.keep left) {L R : List Entry}
    (h : Own Γ (b + entriesPages Γ.P R) r
      (.node left (.leaf tl L) ::ₘ .node right (.leaf tr R) ::ₘ O) s)
    (hfit : fill Γ.P L + fill Γ.P R ≤ Γ.P - 18) (hslots : SlotFits Γ.P (L ++ R)) :
    Exec.Ok (BTree.mergeLeaf Γ.env left right) s fun _ s' => ∃ R' G, SameData R' R ∧ JunkOnly G ∧
      Own Γ b r (.node left (.leaf tl (L ++ R')) ::ₘ (G + O)) s' := by
  have hcount : Node.countOf right s = (.ok R.length, s) :=
    h.countOf (Multiset.mem_cons_of_mem (Multiset.mem_cons_self _ _))
  obtain ⟨_, s₁, hloop, R', hR', h₁⟩ := mergeLeafLoop_ok hleft L [] R h hfit (by
    unfold SlotFits at hslots
    rw [List.length_append] at hslots
    omega)
  obtain ⟨s₂, G, hfree, hG, h₂⟩ := (h₁.perm (Multiset.cons_swap _ _ _)).freeNode
  refine Exec.Ok.intro () s₂ ?_ ⟨R', G, hR', hG, h₂.perm (by rw [Multiset.add_cons])⟩
  unfold BTree.mergeLeaf
  rw [Exec.bind_of_ok hcount]
  change BTree.mergeLeafLoop Γ.env left right R.length 0 s = _ at hloop
  rw [Exec.bind_of_ok hloop]
  exact hfree

end Leaf

/-! ## Branches -/

section Branch

variable {Γ : PageScope} {b r : ℕ} {O : Multiset Obj} {s : TxState} {left right tl tr x : Nat}

theorem mergeBranchLoop_ok (hleft : ¬ Γ.keep left) (L M R : List Entry) (ksL ksM ksR ks : List Nat)
    (hL : ksL.length = L.length) (hM : ksM.length = M.length) (hR : ksR.length = R.length)
    (h : Own Γ (b + entriesPages Γ.P R) r (.node left (.branch tl L (ksL ++ [x])) ::ₘ
      .node right (.branch tr (M ++ R) (ksM ++ (ksR ++ ks))) ::ₘ O) s)
    (hslots : 18 + 8 * (L.length + R.length) < Γ.P) :
    (fill Γ.P L + fill Γ.P R ≤ Γ.P - 18 →
      Exec.Ok (BTree.mergeBranchLoop Γ.env left right R.length M.length) s fun _ s' =>
        ∃ R', SameContent R' R ∧
          Own Γ b r (.node left (.branch tl (L ++ R') (ksL ++ (ksR ++ [x]))) ::ₘ
          .node right (.branch tr (M ++ R) (ksM ++ (ksR ++ ks))) ::ₘ O) s') ∧
    (Γ.P - 18 < fill Γ.P L + fill Γ.P R →
      Exec.Fails (BTree.mergeBranchLoop Γ.env left right R.length M.length) s) := by
  induction R generalizing L M ksL ksM ksR s with
  | nil =>
    obtain rfl : ksR = [] := List.length_eq_zero_iff.1 hR
    refine ⟨fun _ => Exec.Ok.intro () s rfl
      ⟨[], SameContent.refl [], h.perm (by rw [List.append_nil L]; rfl)⟩, fun hover => ?_⟩
    have := h.fill_le_of_mem (Multiset.mem_cons_self _ _)
    rw [fill_nil] at hover
    exact absurd this (by simpa using hover)
  | cons e R ih =>
    cases ksR with
    | nil => cases hR
    | cons child ksR =>
      have hmr : Obj.node right (.branch tr (M ++ e :: R) (ksM ++ (child :: ksR ++ ks))) ∈
          .node left (.branch tl L (ksL ++ [x])) ::ₘ
            .node right (.branch tr (M ++ e :: R) (ksM ++ (child :: ksR ++ ks))) ::ₘ O :=
        Multiset.mem_cons_of_mem (Multiset.mem_cons_self _ _)
      have hkey := h.getKey hmr (i := M.length) (e := e) (by simp)
      have hchild := h.getLeftChild hmr (i := M.length) (c := child) (by rw [← hM]; simp)
      have hcount : Node.countOf left s = (.ok L.length, s) :=
        h.countOf (Multiset.mem_cons_self _ _)
      have hvalue := h.branch_values hmr e (by simp)
      have hadm := (h.admissible_of_mem hmr e (by simp)).admissible.key
      have hstub : recordStub Γ.P e.key [] = e.stub Γ.P := by rw [Entry.stub_eq, hvalue]
      have hpages : entriesPages Γ.P (e :: R) = entriesPages Γ.P R + recordPages Γ.P e.key [] := by
        rw [show recordPages Γ.P e.key [] = e.pages Γ.P by rw [Entry.pages_eq, hvalue]]
        simp [add_comm]
      have happend : BranchNode.append Γ.env left e.key child false s =
          BranchNode.insert Γ.env left L.length e.key child false s := by
        unfold BranchNode.append
        rw [Exec.bind_of_ok hcount]
      rw [fill_cons]
      by_cases hfit : Fits Γ.P L e.key []
      · have h₀ : Own Γ (b + entriesPages Γ.P R + recordPages Γ.P e.key []) r
            (.node left (.branch tl (L ++ []) (ksL ++ x :: [])) ::ₘ
              .node right (.branch tr (M ++ e :: R) (ksM ++ (child :: ksR ++ ks))) ::ₘ O) s :=
          (h.room_mono _ (by omega)).perm (by rw [List.append_nil L])
        have hfit' : Fits Γ.P (L ++ []) e.key [] := by
          rw [List.append_nil]
          exact hfit
        have hslots' : SlotFits Γ.P (L ++ []) := by
          rw [List.length_cons] at hslots
          rw [List.append_nil]
          unfold SlotFits
          omega
        obtain ⟨_, s₁, hins, rfl, bucket, run, h₁⟩ :=
          h₀.branchInsert_left hleft hL hadm hfit' hslots' child
        have hmove : M ++ e :: R = (M ++ [e]) ++ R := by simp
        have hkids : ksM ++ (child :: ksR ++ ks) = (ksM ++ [child]) ++ (ksR ++ ks) := by simp
        have hkids' : ksL ++ child :: x :: [] = (ksL ++ [child]) ++ [x] := by simp
        rw [hmove, hkids, hkids'] at h₁
        have hstep : fill Γ.P (L ++ [⟨e.key, [], bucket, run⟩]) =
            fill Γ.P L + (8 + e.stub Γ.P) := by
          rw [fill_append, fill_cons, fill_nil, Entry.stub_eq, ← hstub]
          rfl
        obtain ⟨hok, hfails⟩ :=
          ih (L ++ [⟨e.key, [], bucket, run⟩]) (M ++ [e]) (ksL ++ [child]) (ksM ++ [child]) ksR
          (by simp [hL]) (by simp [hM]) (Nat.succ.inj hR) h₁
          (by simp only [List.length_append, List.length_cons, List.length_nil] at hslots ⊢; omega)
        have hbegin : BTree.mergeBranchLoop Γ.env left right (e :: R).length M.length s =
            BTree.mergeBranchLoop Γ.env left right R.length (M ++ [e]).length s₁ := by
          rw [List.length_cons, List.length_append, List.length_singleton]
          conv_lhs => unfold BTree.mergeBranchLoop assert
          rw [Exec.bind_of_ok hkey, Exec.bind_of_ok hchild, Exec.bind_of_ok (happend.trans hins),
            Exec.require_bind rfl]
        constructor
        · intro hroom
          obtain ⟨_, s', hrest, R', hR', h'⟩ := hok (by omega)
          refine Exec.Ok.intro () s' (hbegin.trans hrest)
            ⟨⟨e.key, [], bucket, run⟩ :: R', SameContent.cons ?_ hR', ?_⟩
          · rw [Entry.content, Entry.content, hvalue]
          · rw [hmove, hkids]
            refine h'.perm ?_
            simp only [List.append_assoc, List.cons_append, List.nil_append]
        · intro hover
          obtain ⟨err, s', hrest⟩ := hfails (by omega)
          exact ⟨err, s', hbegin.trans hrest⟩
      · -- the next key does not fit
        have h₀ : Own Γ (b + entriesPages Γ.P (e :: R)) r
            (.node left (.branch tl (L ++ []) (ksL ++ [x])) ::ₘ
            .node right (.branch tr (M ++ e :: R) (ksM ++ (child :: ksR ++ ks))) ::ₘ O) s :=
          h.perm (by rw [List.append_nil L])
        have hrefused : BranchNode.insert Γ.env left L.length e.key child false s =
            (.ok false, s) :=
          h₀.branchInsert_refused (by rw [List.append_nil]; exact hfit) child
        refine ⟨fun hroom => ?_, fun _ => ⟨.assertion, s, ?_⟩⟩
        · refine absurd ?_ hfit
          unfold Fits
          omega
        · rw [List.length_cons]
          unfold BTree.mergeBranchLoop assert
          rw [Exec.bind_of_ok hkey, Exec.bind_of_ok hchild,
            Exec.bind_of_ok (happend.trans hrefused), Exec.require_bind_not (by decide)]

/-- **`BTree::Merge(BranchNode)`.** -/
theorem mergeBranch_ok (hleft : ¬ Γ.keep left) {L R : List Entry} {ksL ksR : List Nat}
    {downKey : Bytes} (hadm : Admissible Γ.P downKey [])
    (h : Own Γ (b + (entriesPages Γ.P R + recordPages Γ.P downKey [])) r
      (.node left (.branch tl L ksL) ::ₘ .node right (.branch tr R ksR) ::ₘ O) s)
    (hslots : SlotFits Γ.P (L ++ R)) :
    (fill Γ.P L + (8 + recordStub Γ.P downKey []) + fill Γ.P R ≤ Γ.P - 18 →
      Exec.Ok (BTree.mergeBranch Γ.env left right downKey) s fun _ s' => ∃ u R' G, u.key = downKey ∧
      SameContent R' R ∧
        JunkOnly G ∧ Own Γ b r (.node left (.branch tl (L ++ u :: R') (ksL ++ ksR)) ::ₘ (G + O))
          s') ∧
    (Γ.P - 18 < fill Γ.P L + (8 + recordStub Γ.P downKey []) + fill Γ.P R →
      Exec.Fails (BTree.mergeBranch Γ.env left right downKey) s) := by
  -- A branch has one child more than keys, so both lists of children end in a tail.
  have hlenL := h.kids_length_of_own
  have hlenR := (h.perm (Multiset.cons_swap _ _ _)).kids_length_of_own
  cases ksL using List.reverseRecOn with
  | nil => cases hlenL
  | append_singleton ksL y =>
    cases ksR using List.reverseRecOn with
    | nil => cases hlenR
    | append_singleton ksR tail =>
      have hL : ksL.length = L.length := by simpa using hlenL
      have hR : ksR.length = R.length := by simpa using hlenR
      have hcountL : Node.countOf left s = (.ok L.length, s) :=
        h.countOf (Multiset.mem_cons_self _ _)
      have happend : BranchNode.append Γ.env left downKey kPageInvalidId true s =
          BranchNode.insert Γ.env left L.length downKey kPageInvalidId true s := by
        unfold BranchNode.append
        rw [Exec.bind_of_ok hcountL]
      -- The loop runs when the left node took the key from above; `Append` refuses it otherwise.
      by_cases hfit : Fits Γ.P L downKey []
      · have h₀ : Own Γ (b + entriesPages Γ.P R + recordPages Γ.P downKey []) r
            (.node left (.branch tl (L ++ []) (ksL ++ y :: [])) ::ₘ
              .node right (.branch tr R (ksR ++ [tail])) ::ₘ O) s :=
          (h.room_mono _ (by omega)).perm (by rw [List.append_nil L])
        have hfit' : Fits Γ.P (L ++ []) downKey [] := by
          rw [List.append_nil]
          exact hfit
        have hslots' : SlotFits Γ.P (L ++ []) := by
          unfold SlotFits at hslots ⊢
          rw [List.length_append] at hslots
          rw [List.append_nil]
          omega
        -- `Append` puts in an invalid right child; the tail of the right node replaces it at the
        -- end.
        obtain ⟨_, s₁, hins, rfl, bucket, run, h₁⟩ :=
          h₀.branchInsert_right hleft hL hadm hfit' hslots' kPageInvalidId
        have hcountR : Node.countOf right s₁ = (.ok R.length, s₁) :=
          h₁.countOf (Multiset.mem_cons_of_mem (Multiset.mem_cons_self _ _))
        have hkids : ksL ++ y :: kPageInvalidId :: [] = (ksL ++ [y]) ++ [kPageInvalidId] := by simp
        rw [hkids] at h₁
        have hstep : fill Γ.P (L ++ [⟨downKey, [], bucket, run⟩]) =
            fill Γ.P L + (8 + recordStub Γ.P downKey []) := by
          rw [fill_append, fill_cons, fill_nil, Entry.stub_eq]
          rfl
        -- The loop starts with nothing moved, and the key from above already in the left node.
        obtain ⟨hok, hfails⟩ :=
          mergeBranchLoop_ok hleft (L ++ [⟨downKey, [], bucket, run⟩]) [] R (ksL ++ [y]) [] ksR
          [tail] (by simp [hL]) rfl hR h₁ (by
            unfold SlotFits at hslots
            simp only [List.length_append, List.length_cons, List.length_nil] at hslots ⊢
            omega)
        have hbegin : BTree.mergeBranch Γ.env left right downKey s = (do
            BTree.mergeBranchLoop Γ.env left right R.length 0
            let tail ← BranchNode.getTailChild right
            BranchNode.setTailChild left tail
            Pager.free right 1 : TxM Unit) s₁ := by
          unfold BTree.mergeBranch assert
          rw [Exec.bind_of_ok (happend.trans hins), Exec.require_bind rfl, Exec.bind_of_ok hcountR]
        constructor
        · intro hroom
          obtain ⟨_, s₂, hloop, R', hR', h₂⟩ := hok (by omega)
          have htail : BranchNode.getTailChild right s₂ = (.ok tail, s₂) :=
            h₂.getTailChild (Multiset.mem_cons_of_mem (Multiset.mem_cons_self _ _))
          have h₂' : Own Γ b r (.node left (.branch tl (L ++ ⟨downKey, [], bucket, run⟩ :: R')
              ((ksL ++ [y] ++ ksR) ++ [kPageInvalidId])) ::ₘ
                .node right (.branch tr R (ksR ++ [tail])) ::ₘ O) s₂ :=
            h₂.perm (by simp only [List.append_assoc, List.cons_append, List.nil_append])
          obtain ⟨s₃, hset, h₃⟩ := h₂'.setTailChild hleft tail
          obtain ⟨s₄, G, hfree, hG, h₄⟩ := (h₃.perm (Multiset.cons_swap _ _ _)).freeNode
          refine Exec.Ok.intro () s₄ ?_
            ⟨⟨downKey, [], bucket, run⟩, R', G, rfl, hR', hG, h₄.perm ?_⟩
          · rw [hbegin]
            change BTree.mergeBranchLoop Γ.env left right R.length 0 s₁ = _ at hloop
            rw [Exec.bind_of_ok hloop, Exec.bind_of_ok htail, Exec.bind_of_ok hset]
            exact hfree
          · rw [Multiset.add_cons]
            simp only [List.append_assoc]
        · intro hover
          obtain ⟨err, s₂, hloop⟩ := hfails (by omega)
          change BTree.mergeBranchLoop Γ.env left right R.length 0 s₁ = _ at hloop
          refine ⟨err, s₂, ?_⟩
          rw [hbegin, Exec.bind_of_error hloop]
      · have h₀ : Own Γ (b + (entriesPages Γ.P R + recordPages Γ.P downKey [])) r
            (.node left (.branch tl (L ++ []) (ksL ++ [y])) ::ₘ
              .node right (.branch tr R (ksR ++ [tail])) ::ₘ O) s :=
          h.perm (by rw [List.append_nil L])
        have hrefused : BranchNode.insert Γ.env left L.length downKey kPageInvalidId true s =
            (.ok false, s) :=
          h₀.branchInsert_refused (by rw [List.append_nil]; exact hfit) kPageInvalidId
        refine ⟨fun hroom => ?_, fun _ => ⟨.assertion, s, ?_⟩⟩
        · refine absurd ?_ hfit
          unfold Fits
          omega
        · unfold BTree.mergeBranch assert
          rw [Exec.bind_of_ok (happend.trans hrefused), Exec.require_bind_not (by decide)]

end Branch

end AtomKV
