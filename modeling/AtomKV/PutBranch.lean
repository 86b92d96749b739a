import AtomKV.PathCopy
import AtomKV.SplitBranch

/-!
# Insertion into the branches

A child of a branch has been split. `BTree::Put` enters the new right half into the branch, and when
that is full it splits the branch and goes on one level up. What lies below the two halves plays no
part in this, so the path is treated as a tree with two neighbouring holes (`Ctx.Joins`).

The result is such a tree unless some branch split on the way takes its second try. Then two
reachable branches have a child in common (`SharesChild`), whatever happens further up.
-/

set_option autoImplicit false

namespace AtomKV

/-! ## Reachable pages -/

/-- The page `p` is a branch with the child `x`. -/
def TxState.Child (s : TxState) (p x : Nat) : Prop :=
  p < kPageMaxCount ∧ ∃ n, s.pager.pages p = .node n ∧ n.isBranch = true ∧ x ∈ n.kids

/-- The node pages that can be reached from the root. -/
inductive TxState.Reaches (s : TxState) : Nat → Prop where
  | root : Reaches s s.rootPgid
  | child {p x : Nat} (hp : Reaches s p) (hx : s.Child p x) : Reaches s x

/-- Two reachable branches have a child in common. -/
def TxState.SharesChild (s : TxState) : Prop :=
  ∃ p p' x, p ≠ p' ∧ s.Reaches p ∧ s.Reaches p' ∧ s.Child p x ∧ s.Child p' x

namespace Own

variable {Γ : Scope} {b r : ℕ} {O : Multiset Obj} {s : TxState}

theorem child {p t : Nat} {es : List Entry} {kids : List Nat} (h : Own Γ b r O s)
    (hm : Obj.node p (.branch t es kids) ∈ O) {x : Nat} (hx : x ∈ kids) : s.Child p x := by
  obtain ⟨n, hrep, -, hpage, -⟩ := h.read_of_mem hm
  have hlt : p < kPageMaxCount := by
    obtain ⟨O', rfl⟩ := Multiset.exists_cons_of_mem hm
    have h1 := (h.page_lt (node_pos p _)).2
    have h2 := h.room
    omega
  refine ⟨hlt, n, hpage, hrep.isBranch_eq, ?_⟩
  unfold Node.kids
  rw [hrep.body.2.2]
  exact hx

/-- The hole of a path is reached through the path. -/
theorem reaches_hole {d D : ℕ} (c : Ctx d D) (x : Nat) (h : Own Γ b (c.rootId x) (c.objs x + O) s) :
    s.Reaches x := by
  induction c generalizing x O with
  | top =>
    have hroot : s.rootPgid = x := h.root
    exact hroot ▸ .root
  | under f c ih =>
    have hf := ih f.pgid (O := f.obj x ::ₘ (f.sideObjs + O)) (h.perm (by
      rw [Ctx.objs]
      simp only [← Multiset.singleton_add]
      abel))
    refine .child hf (h.child (Multiset.mem_add.2 (.inl (Multiset.mem_cons_self _ _))) ?_)
    simp

theorem node_ne {p q : Nat} {v w : NodeView} (h : Own Γ b r (.node p v ::ₘ .node q w ::ₘ O) s) :
    p ≠ q := by
  rintro rfl
  have h1 := (h.disjoint (node_pos p v)).1
  have h2 : 0 < objCount Γ.P (.node p w) p := node_pos p w
  rw [objsCount_cons] at h1
  omega

end Own

/-! ## Two neighbouring holes -/

/-- The splits on the way up do not need their second try. -/
def RisesCleanly (P : Nat) : List (List Entry × List Entry) → Bytes → Prop
  | [], _ => True
  | (A, B) :: rest, key =>
      Fits P (A ++ B) key [] ∨
        ¬ SplitRefuses P (A ++ B) A.length key ∧
          RisesCleanly P rest (risingKey P (A ++ B) A.length key)

instance decidableRisesCleanly (P : Nat) :
    ∀ (levels : List (List Entry × List Entry)) (key : Bytes), Decidable (RisesCleanly P levels key)
  | [], _ => inferInstanceAs (Decidable True)
  | (A, B) :: rest, key =>
      have := decidableRisesCleanly P rest (risingKey P (A ++ B) A.length key)
      inferInstanceAs (Decidable (_ ∨ _ ∧ _))

/-- Pages that the way up can take. -/
def levelsRoom (P : Nat) : List (List Entry × List Entry) → ℕ
  | [] => 2
  | (A, B) :: rest => 2 + 2 * entriesPages P (A ++ B) + levelsRoom P rest

/-- The nodes `N` with the root page `root` are the path `c` whose hole now holds two trees, with
`key` between them. -/
def Ctx.Joins (Γ : Scope) {d D : ℕ} (c : Ctx d D) (left right : Nat) (key : Bytes) (D' : ℕ)
    (root : Nat) (N : Multiset Obj) : Prop :=
  ∀ tl tr : Tree d, tl.pgid = left → tr.pgid = right → ∃ t : Tree D', t.pgid = root ∧
    t.objs = N + (tl.objs + tr.objs) ∧
    t.flat = c.before ++ (tl.flat ++ .separator key :: tr.flat) ++ c.after ∧
    (c.Full → tl.Full → tr.Full → t.Full) ∧
    (c.SidesSafe Γ.need Γ.keep → tl.Safe Γ.need Γ.keep → tr.Safe Γ.need Γ.keep →
      t.Safe Γ.need Γ.keep)

theorem recordPages_le_one {P : Nat} (hP : 0 < P) {key : Bytes} (h : Admissible P key []) :
    recordPages P key [] ≤ 1 := by
  have hlen : key.length ≤ P := h.key_le_page
  unfold recordPages Entry.pages
  split_ifs
  · have : Pager.getPageCount P key.length ≤ Pager.getPageCount P P :=
      Pager.getPageCount_mono hP hlen
    have h2 : Pager.getPageCount P P = 1 := by
      unfold Pager.getPageCount
      rw [Nat.mod_self, if_neg (by simp), Nat.div_self hP]
    simpa [Entry.size, h2] using this
  · exact Nat.zero_le _

section Joins

variable {Γ : Scope} {d D : ℕ} {left right : Nat} {key : Bytes}

/-- A new root over the two trees. -/
theorem Ctx.Joins.newRoot {root bucket run : _} (hroot : ¬ Γ.keep root) :
    (Ctx.top : Ctx d d).Joins Γ left right key (d + 1) root
      {.node root (.branch Γ.txid [⟨key, [], bucket, run⟩] [left, right])} := by
  rintro tl tr rfl rfl
  refine ⟨.branch root Γ.txid [⟨key, [], bucket, run⟩] [tl, tr] rfl, rfl, ?_, ?_, ?_, ?_⟩
  · simp
  · simp [weave, Ctx.before, Ctx.after]
  · intro _ hl hr
    simp [hl, hr]
  · intro _ hl hr
    refine ⟨?_, fun hk => absurd hk hroot⟩
    intro k hk
    rcases List.mem_cons.1 hk with rfl | hk
    · exact hl
    · rw [List.mem_singleton.1 hk]
      exact hr

/-- The children of a frame around two trees. -/
theorem Frame.weave_two (f : Frame d) (tl tr : Tree d) :
    weave ((f.ksL ++ tl :: tr :: f.ksR).map Tree.flat)
        (separatorItems f.esL ++ .separator key :: separatorItems f.esR) =
      f.before ++ (tl.flat ++ .separator key :: tr.flat) ++ f.after := by
  rw [List.map_append, List.map_cons, List.map_cons,
    weave_around _ _ _ _ _ (by simpa using f.lenL), weavePost_cons]
  simp [Frame.before, Frame.after]

theorem Frame.objs_two (f : Frame d) (tl tr : Tree d) :
    ((f.ksL ++ tl :: tr :: f.ksR).map Tree.objs).sum = f.sideObjs + (tl.objs + tr.objs) := by
  rw [List.map_append, List.map_cons, List.map_cons, List.sum_append, List.sum_cons, List.sum_cons]
  unfold Frame.sideObjs
  abel

/-- The two trees side by side in a branch that had room for one more key. -/
theorem Ctx.Joins.insert {bucket run : _} (f : Frame d) (c : Ctx (d + 1) D)
    (hfree : (Ctx.under f c).Free Γ.keep) :
    (Ctx.under f c).Joins Γ left right key D (c.rootId f.pgid)
      (.node f.pgid (.branch f.txid (f.esL ++ ⟨key, [], bucket, run⟩ :: f.esR)
        (f.ksL.map Tree.pgid ++ left :: right :: f.ksR.map Tree.pgid)) ::ₘ
          (f.sideObjs + c.objs f.pgid)) := by
  rintro tl tr rfl rfl
  have len : (f.ksL ++ tl :: tr :: f.ksR).length =
      (f.esL ++ ⟨key, [], bucket, run⟩ :: f.esR).length + 1 := by
    have := f.lenL
    have := f.lenR
    simp only [List.length_append, List.length_cons]
    omega
  refine ⟨c.plug (.branch f.pgid f.txid _ _ len), c.pgid_plug _, ?_, ?_, ?_, ?_⟩
  · rw [Ctx.objs_plug, Tree.objs_branch, f.objs_two, Tree.pgid_branch, List.map_append,
      List.map_cons, List.map_cons]
    simp only [← Multiset.singleton_add]
    abel
  · rw [Ctx.flat_plug, Tree.flat_branch, separatorItems_append, separatorItems_cons, f.weave_two]
    simp [Ctx.before, Ctx.after]
  · intro hc hl hr
    refine (Ctx.full_plug c _).2 ⟨hc.2, (Tree.full_branch ..).2 ⟨by simp, fun k hk => ?_⟩⟩
    rcases List.mem_append.1 hk with hk | hk
    · exact hc.1.2.1 k hk
    · rcases List.mem_cons.1 hk with rfl | hk
      · exact hl
      · rcases List.mem_cons.1 hk with rfl | hk
        · exact hr
        · exact hc.1.2.2 k hk
  · intro hc hl hr
    refine c.safe_plug _ hfree.2 hc.2.2 ⟨fun k hk => ?_, fun hk => absurd hk hfree.1⟩
    rcases List.mem_append.1 hk with hk | hk
    · exact hc.1 k hk
    · rcases List.mem_cons.1 hk with rfl | hk
      · exact hl
      · rcases List.mem_cons.1 hk with rfl | hk
        · exact hr
        · exact hc.2.1 k hk

/-- The two trees below a branch that was split in turn. -/
theorem Ctx.Joins.split {f : Frame d} {c : Ctx (d + 1) D} {L M : List Entry} {u : Entry}
    {kL kR : List Nat} {right' D' root : Nat} {N : Multiset Obj}
    (hkeys : SameContent (L ++ u :: M) (f.esL ++ ⟨key, [], false, 0⟩ :: f.esR))
    (hkids : kL ++ kR = f.ksL.map Tree.pgid ++ left :: right :: f.ksR.map Tree.pgid)
    (hkL : kL.length = L.length + 1) (hL : L ≠ []) (hM : M ≠ []) (hleft : ¬ Γ.keep f.pgid)
    (hright : ¬ Γ.keep right') (h : c.Joins Γ f.pgid right' u.key D' root N) :
    (Ctx.under f c).Joins Γ left right key D' root
      (N + (.node f.pgid (.branch f.txid L kL) ::ₘ .node right' (.branch Γ.txid M kR) ::ₘ
        f.sideObjs)) := by
  rintro tl tr rfl rfl
  -- `Split` divided the page ids of the children; the trees behind them divide in the same place.
  obtain ⟨ksA, ksB, hks, hA, hB, -⟩ := ListAt.exists_split_of_map (f := Tree.pgid)
    (l := f.ksL ++ tl :: tr :: f.ksR) (show _ = kL ++ kR by rw [hkids]; simp)
  have lenA : ksA.length = L.length + 1 := by
    rw [← List.length_map Tree.pgid, hA, hkL]
  have lenB : ksB.length = M.length + 1 := by
    have h1 := congrArg List.length hks
    have h2 := hkeys.length_eq
    have h3 := f.lenL
    have h4 := f.lenR
    simp only [List.length_append, List.length_cons] at h1 h2
    omega
  have hmem : ∀ k, k ∈ ksA ∨ k ∈ ksB → k ∈ f.ksL ∨ k = tl ∨ k = tr ∨ k ∈ f.ksR := fun k hk => by
    have hk' := List.mem_append.2 hk
    rw [← hks] at hk'
    simpa using hk'
  obtain ⟨t, hroot, hobjs, hflat, hfull, hsafe⟩ :=
    h (.branch f.pgid f.txid L ksA lenA) (.branch right' Γ.txid M ksB lenB) rfl rfl
  refine ⟨t, hroot, ?_, ?_, ?_, ?_⟩
  · have hsum : (ksA.map Tree.objs).sum + (ksB.map Tree.objs).sum =
        f.sideObjs + (tl.objs + tr.objs) := by
      rw [← List.sum_append, ← List.map_append, ← hks, f.objs_two]
    rw [hobjs, Tree.objs_branch, Tree.objs_branch, hA, hB]
    generalize (ksA.map Tree.objs).sum = X at hsum ⊢
    generalize (ksB.map Tree.objs).sum = Y at hsum ⊢
    rw [Multiset.add_cons, Multiset.cons_add, hsum]
    simp only [← Multiset.singleton_add]
    abel
  -- The key that rose stands between the two sequences, where it stood in the undivided branch.
  · have hne : ksB.map Tree.flat ≠ [] := by
      intro hnil
      rw [List.map_eq_nil_iff.1 hnil] at lenB
      simp at lenB
    have hweave := weave_append (ksA.map Tree.flat) (ksB.map Tree.flat) (Item.separator u.key)
      (separatorItems L) (separatorItems M) (by simpa using lenA) hne
    rw [← List.map_append, ← hks, ← separatorItems_cons, ← separatorItems_append,
      hkeys.separatorItems_eq, separatorItems_append, separatorItems_cons, f.weave_two] at hweave
    rw [hflat, Tree.flat_branch, Tree.flat_branch, ← hweave]
    simp [Ctx.before, Ctx.after]
  · intro hc hl hr
    have hk : ∀ k, k ∈ ksA ∨ k ∈ ksB → k.Full := fun k hk => by
      rcases hmem k hk with hk | rfl | rfl | hk
      · exact hc.1.2.1 k hk
      · exact hl
      · exact hr
      · exact hc.1.2.2 k hk
    exact hfull hc.2 ((Tree.full_branch ..).2 ⟨hL, fun k hA => hk k (.inl hA)⟩)
      ((Tree.full_branch ..).2 ⟨hM, fun k hB => hk k (.inr hB)⟩)
  · intro hc hl hr
    have hk : ∀ k, k ∈ ksA ∨ k ∈ ksB → k.Safe Γ.need Γ.keep := fun k hk => by
      rcases hmem k hk with hk | rfl | rfl | hk
      · exact hc.1 k hk
      · exact hl
      · exact hr
      · exact hc.2.1 k hk
    exact hsafe hc.2.2 ⟨fun k hA => hk k (.inl hA), fun hkeep => absurd hkeep hleft⟩
      ⟨fun k hB => hk k (.inr hB), fun hkeep => absurd hkeep hright⟩

end Joins

/-! ## The recursion -/

section Recursion

variable {Γ : Scope} {b : ℕ} {O : Multiset Obj} {s : TxState} {left right : Nat} {key : Bytes}

/-- **`BTree::Put` into the branches.** -/
theorem putBranch_ok {d D : ℕ} (c : Ctx d D) (hfree : c.Free Γ.keep) (hadm : Admissible Γ.P key [])
    (left right : Nat)
    (h : Own Γ (b + levelsRoom Γ.P c.levels) (c.rootId left) (c.objs left + O) s) :
    Exec.Ok (BTree.putBranch Γ.env c.stack left right key) s fun _ s' =>
      (RisesCleanly Γ.P c.levels key → ∃ D' root N, Own Γ b root (N + O) s' ∧
        s'.Reaches left ∧ s'.Reaches right ∧ c.Joins Γ left right key D' root N) ∧
      (¬ RisesCleanly Γ.P c.levels key → s'.SharesChild) := by
  induction c generalizing b O s left right key with
  | top =>
    have hpages := recordPages_le_one Γ.P_pos hadm
    have hroom : Own Γ (b + recordPages Γ.P key [] + 1) left O s :=
      (h.room_mono _ (by simp only [Ctx.levels, levelsRoom]; omega)).perm (by simp [Ctx.objs])
    obtain ⟨root, s₁, halloc, h₁⟩ := hroom.alloc
    obtain ⟨s₂, hbuild, hroot, h₂, -⟩ := (h₁.setRoot root).buildBranch left
    have hfit : Fits Γ.P ([] ++ []) key [] := by
      refine fits_of_half Γ.hP ?_ key []
      simp
    have hcount : Node.countOf root s₂ = (.ok 0, s₂) := h₂.countOf (Multiset.mem_cons_self _ _)
    obtain ⟨_, s₃, hins, rfl, bucket, run, h₃⟩ :=
      Own.branchInsert_right
        (show Own Γ _ _ (.node root (.branch Γ.txid ([] ++ []) ([] ++ left :: [])) ::ₘ O) s₂
        from h₂) hroot rfl hadm hfit (hfit.slotFits Γ.ok.pageSize) right
    have happend : BranchNode.append Γ.env root key right true s₂ = (.ok true, s₃) := by
      unfold BranchNode.append
      rw [Exec.bind_of_ok hcount]
      exact hins
    refine Exec.Ok.intro () s₃ ?_
      ⟨fun _ => ⟨_, root, _, h₃.perm (Multiset.singleton_add _ _).symm, ?_, ?_,
      Ctx.Joins.newRoot hroot⟩, fun hnot => absurd trivial hnot⟩
    · unfold Ctx.stack BTree.putBranch
      rw [Exec.bind_of_ok halloc, Exec.change_bind, Exec.bind_of_ok hbuild, Exec.bind_of_ok happend]
      rfl
    · have hreach : s₃.Reaches root := h₃.root ▸ .root
      exact .child hreach (h₃.child (Multiset.mem_cons_self _ _) (by simp))
    · have hreach : s₃.Reaches root := h₃.root ▸ .root
      exact .child hreach (h₃.child (Multiset.mem_cons_self _ _) (by simp))
  | under f c ih =>
    obtain ⟨hf, hc⟩ := hfree
    have hpages := recordPages_le_one Γ.P_pos hadm
    have hlen : (f.ksL.map Tree.pgid).length = f.esL.length := by simpa using f.lenL
    have h₀ : Own Γ (b + levelsRoom Γ.P c.levels +
        (1 + 2 * entriesPages Γ.P (f.esL ++ f.esR) + recordPages Γ.P key [])) (c.rootId f.pgid)
        (f.obj left ::ₘ (f.sideObjs + c.objs f.pgid + O)) s := by
      refine (h.room_mono _ (by simp only [Ctx.levels, levelsRoom]; omega)).perm ?_
      rw [Ctx.objs, Multiset.cons_add]
    by_cases hfit : Fits Γ.P (f.esL ++ f.esR) key []
    · -- the branch has room
      obtain ⟨_, s₁, hins, rfl, bucket, run, h₁⟩ :=
        (h₀.room_mono (b + recordPages Γ.P key []) (by omega)).branchInsert_right hf hlen hadm hfit
          (hfit.slotFits Γ.ok.pageSize) right
      have hown : Own Γ b (c.rootId f.pgid) ((.node f.pgid (.branch f.txid
          (f.esL ++ ⟨key, [], bucket, run⟩ :: f.esR)
          (f.ksL.map Tree.pgid ++ left :: right :: f.ksR.map Tree.pgid)) ::ₘ
            (f.sideObjs + c.objs f.pgid)) + O) s₁ := h₁.perm (by rw [Multiset.cons_add])
      have hreach : s₁.Reaches f.pgid := by
        refine Own.reaches_hole c f.pgid (O := .node f.pgid (.branch f.txid
          (f.esL ++ ⟨key, [], bucket, run⟩ :: f.esR)
          (f.ksL.map Tree.pgid ++ left :: right :: f.ksR.map Tree.pgid)) ::ₘ (f.sideObjs + O))
          (hown.perm ?_)
        simp only [← Multiset.singleton_add]
        abel
      refine Exec.Ok.intro () s₁ ?_ ⟨fun _ => ⟨_, c.rootId f.pgid, _, hown, ?_, ?_,
        Ctx.Joins.insert f c ⟨hf, hc⟩⟩, fun hnot => absurd (.inl hfit) hnot⟩
      · unfold Ctx.stack BTree.putBranch
        rw [Exec.bind_of_ok hins]
        rfl
      · exact .child hreach (h₁.child (Multiset.mem_cons_self _ _) (by simp))
      · exact .child hreach (h₁.child (Multiset.mem_cons_self _ _) (by simp))
    · -- the branch is split, and the recursion goes on above
      have hrefused : BranchNode.insert Γ.env f.pgid f.esL.length key right true s =
          (.ok false, s) :=
        h₀.branchInsert_refused hfit right
      obtain ⟨⟨up, right'⟩, s₁, hsplit, L, u, M, kL, kR, hres, hclean, hretry⟩ :=
        splitBranch_ok hf hadm right h₀ hlen hfit
      obtain rfl : up = u.key := hres.key_eq
      have h₁ := hres.own
      obtain ⟨_, s', hrest, hgood, hbad⟩ := ih (b := b) (s := s₁)
        (O := .node f.pgid (.branch f.txid L kL) ::ₘ .node right' (.branch Γ.txid M kR) ::ₘ
          (f.sideObjs + O)) hc hres.admissible f.pgid right' (h₁.perm (by
            simp only [← Multiset.singleton_add]
            abel))
      have hrun : BTree.putBranch Γ.env (Ctx.under f c).stack left right key s = (.ok (), s') := by
        unfold Ctx.stack BTree.putBranch
        rw [Exec.bind_of_ok hrefused]
        simp only [Bool.false_eq_true, if_false]
        rw [Exec.bind_of_ok hsplit]
        exact hrest
      have hiff : RisesCleanly Γ.P (Ctx.under f c).levels key ↔
          ¬ SplitRefuses Γ.P (f.esL ++ f.esR) f.esL.length key ∧
            RisesCleanly Γ.P c.levels (risingKey Γ.P (f.esL ++ f.esR) f.esL.length key) := by
        show Fits _ _ _ _ ∨ _ ↔ _
        rw [or_iff_right hfit]
      rw [hiff]
      refine Exec.Ok.intro () s' hrun ⟨?_, ?_⟩
      · rintro ⟨hnot, hup⟩
        obtain ⟨hkeys, hkids, hu⟩ := hclean hnot
        rw [← hu] at hup
        obtain ⟨D', root, N, hown, hleft', hright', hjoins⟩ := hgood hup
        have hmemL : Obj.node f.pgid (.branch f.txid L kL) ∈
            N + (.node f.pgid (.branch f.txid L kL) ::ₘ .node right' (.branch Γ.txid M kR) ::ₘ
              (f.sideObjs + O)) := Multiset.mem_add.2 (.inr (Multiset.mem_cons_self _ _))
        have hmemR : Obj.node right' (.branch Γ.txid M kR) ∈
            N + (.node f.pgid (.branch f.txid L kL) ::ₘ .node right' (.branch Γ.txid M kR) ::ₘ
              (f.sideObjs + O)) :=
          Multiset.mem_add.2 (.inr (Multiset.mem_cons_of_mem (Multiset.mem_cons_self _ _)))
        -- every child of the old branch is a child of one of its halves
        have hreach : ∀ x ∈ kL ++ kR, s'.Reaches x := fun x hx => by
          rcases List.mem_append.1 hx with hx | hx
          · exact .child hleft' (hown.child hmemL hx)
          · exact .child hright' (hown.child hmemR hx)
        refine ⟨D', root, _, hown.perm ?_, hreach left (by simp [hkids]),
          hreach right (by simp [hkids]),
            hjoins.split hkeys hkids hres.left_kids hres.left_ne hres.right_ne hf hres.fresh⟩
        simp only [← Multiset.singleton_add]
        abel
      · intro hnot
        by_cases hup : RisesCleanly Γ.P c.levels u.key
        · by_cases hrefuse : SplitRefuses Γ.P (f.esL ++ f.esR) f.esL.length key
          · -- the halves share a child, and both of them are reachable in the end
            obtain ⟨x, hxL, hxR⟩ := hretry hrefuse
            obtain ⟨D', root, N, hown, hleft', hright', -⟩ := hgood hup
            refine ⟨f.pgid, right', x, h₁.node_ne, hleft', hright',
              hown.child (show Obj.node f.pgid (.branch f.txid L kL) ∈ _ from ?_) hxL,
              hown.child (show Obj.node right' (.branch Γ.txid M kR) ∈ _ from ?_) hxR⟩
            · exact Multiset.mem_add.2 (.inr (Multiset.mem_cons_self _ _))
            · exact Multiset.mem_add.2
                (.inr (Multiset.mem_cons_of_mem (Multiset.mem_cons_self _ _)))
          · obtain ⟨-, -, hu⟩ := hclean hrefuse
            rw [hu] at hup
            exact absurd ⟨hrefuse, hup⟩ hnot
        · exact hbad hup

end Recursion

end AtomKV
