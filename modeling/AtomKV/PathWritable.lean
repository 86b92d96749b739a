import AtomKV.Lookup
import AtomKV.Put

/-!
# Writable paths

What `BTreeIterator::CopyAllPagesByPath` leaves behind: the path is linked, its lowest page is the
root, and the tree is the same. Whether all pages of the path may be written rests on the early
return, which takes the ancestors of a page that need not be copied for copied too. A page that only
an older transaction has written is exempt, its parent that a younger one has written is not.
-/

set_option autoImplicit false

namespace AtomKV

/-- The transaction that wrote the node in a page. -/
def TxState.txidOf (s : TxState) (pgid : Nat) : Nat :=
  match s.pager.pages pgid with
  | .node n => n.lastModifiedTxid
  | .raw _ => 0

/-- The pages that need no copy: those of older transactions that are expired and not persisted,
and those of the
    transaction itself. -/
def Exempt (env : Env) (current txid : Nat) : Prop :=
  (env.persistedTxid < txid ∧ txid < env.minViewTxid) ∨ current ≤ txid

instance (env : Env) (current txid : Nat) : Decidable (Exempt env current txid) :=
  inferInstanceAs (Decidable (_ ∨ _))

namespace BTreeIterator

/-- Each branch of the stack has the page below it in the slot. -/
def Linked (s : TxState) : List (Nat × Nat) → Prop
  | x :: y :: rest => BranchNode.getLeftChild y.1 y.2 s = (.ok x.1, s) ∧ Linked s (y :: rest)
  | _ => True

/-- The transactions of the path, from the leaf to the root. -/
def pathTxids (iter : BTreeIterator) (s : TxState) : List Nat :=
  iter.stack.map fun x => s.txidOf x.1

/-- Along the path, whatever is above an exempt page is exempt. -/
def ExemptUpwards (env : Env) (iter : BTreeIterator) (s : TxState) : Prop :=
  (iter.pathTxids s).Pairwise fun txid above => Exempt env s.metaStruct.txid txid →
    Exempt env s.metaStruct.txid above

instance (env : Env) (iter : BTreeIterator) (s : TxState) : Decidable (iter.ExemptUpwards env s) :=
  inferInstanceAs (Decidable (List.Pairwise _ _))

end BTreeIterator

/-- What should hold when the path of `iter` has been copied. -/
structure PathWritable (Γ : Scope) (b : ℕ) (t : Shape) (O : Multiset Obj) (iter : BTreeIterator)
    (s : TxState) : Prop where
  pages : ∀ x ∈ iter.stack, BTreeIterator.copyNeeded Γ.env s.metaStruct.txid (s.txidOf x.1) = false
  linked : BTreeIterator.Linked s iter.stack
  root : iter.stack.getLast?.map Prod.fst = some s.rootPgid
  same : ∃ t' : Shape, WellFormed Γ b t' O s ∧ t'.flat = t.flat

theorem copyNeeded_eq_false_iff (env : Env) (current txid : Nat) :
    BTreeIterator.copyNeeded env current txid = false ↔ Exempt env current txid := by
  unfold BTreeIterator.copyNeeded BTreeIterator.isTxExpired Exempt
  split_ifs with h
  · exact iff_of_true rfl (.inl ⟨h.2, h.1⟩)
  · rw [decide_eq_false_iff_not, Nat.not_lt]
    exact ⟨.inr, fun hor => hor.resolve_left fun hand => h ⟨hand.2, hand.1⟩⟩

/-! ## The transactions along a path -/

section Txids

variable {need : Nat → Bool} {current : ℕ}

/-- The transactions of the branches, from the hole up. -/
def Ctx.txids : {d D : ℕ} → Ctx d D → List Nat
  | _, _, .top => []
  | _, _, .under f c => f.txid :: c.txids

/-- The transactions after the loop. -/
def copiedTxids (need : Nat → Bool) (current : Nat) : List Nat → List Nat
  | [] => []
  | txid :: above => if need txid then current :: copiedTxids need current above else txid :: above

theorem Ctx.Copied.txids_eq {d D : ℕ} {c c' : Ctx d D} (h : Ctx.Copied need current c c') :
    c'.txids = copiedTxids need current c.txids := by
  induction h with
  | top => rfl
  | stop f c hneed =>
    show f.txid :: c.txids = if need f.txid then _ else _
    rw [if_neg (Bool.eq_false_iff.1 hneed)]
  | under f pgid hneed _ ih =>
    show current :: _ = if need f.txid then _ else _
    rw [if_pos hneed, ih]

theorem Place.Copied.txids_eq {D pgid txid : ℕ} {p : Place D} {c : Ctx 0 D}
    (h : p.Copied need current c pgid txid) :
    txid :: c.txids = copiedTxids need current (p.txid :: p.ctx.txids) := by
  rcases h with ⟨hneed, rfl, hc⟩ | ⟨hneed, -, rfl, rfl⟩
  · show _ = if need p.txid then _ else _
    rw [if_pos hneed, hc.txids_eq]
  · show _ = if need p.txid then _ else _
    rw [if_neg (Bool.eq_false_iff.1 hneed)]

/-- The loop stops at the first page that is not copied, so what is above it is as it was. -/
theorem forall_copiedTxids_iff (hcurrent : need current = false) (txids : List Nat) :
    (∀ t ∈ copiedTxids need current txids, need t = false) ↔
      txids.Pairwise fun t above => need t = false → need above = false := by
  induction txids with
  | nil => simp [copiedTxids]
  | cons t above ih =>
    rw [List.pairwise_cons]
    show (∀ x ∈ (if need t then current :: copiedTxids need current above else t :: above),
      need x = false) ↔ _
    by_cases hneed : need t = true
    · rw [if_pos hneed, List.forall_mem_cons, ih]
      refine ⟨fun h => ⟨fun x _ hf => ?_, h.2⟩, fun h => ⟨hcurrent, h.2⟩⟩
      rw [hneed] at hf
      cases hf
    · have hfalse : need t = false := Bool.eq_false_iff.2 hneed
      rw [if_neg hneed, List.forall_mem_cons]
      constructor
      · rintro ⟨-, habove⟩
        refine ⟨fun x hx _ => habove x hx, ?_⟩
        exact List.pairwise_of_forall_mem_list fun x _ y hy _ => habove y hy
      · rintro ⟨habove, -⟩
        exact ⟨hfalse, fun x hx => habove x hx hfalse⟩

end Txids

/-! ## Paths in the pages -/

section Pages

variable {env : Env} {O : Multiset Obj} {s : TxState}

theorem Resident.txidOf (h : Resident env O s) {q : Nat} {v : NodeView} (hm : Obj.node q v ∈ O) :
    s.txidOf q = v.txid := by
  obtain ⟨-, n, hpage, hrep, -⟩ := h.nodeAt q v hm
  unfold TxState.txidOf
  rw [hpage]
  exact hrep.txid

/-- The pages of the path were written by the transactions of its branches. -/
theorem Resident.ctx_txids (h : Resident env O s) {d D : ℕ} (c : Ctx d D) (hole : Nat)
    (hO : ∀ o ∈ c.objs hole, o ∈ O) : (c.stack.map fun x => s.txidOf x.1) = c.txids := by
  induction c generalizing hole with
  | top => rfl
  | under f c ih =>
    have hf : s.txidOf f.pgid = f.txid := h.txidOf (hO _ (Multiset.mem_cons_self _ _))
    have hc := ih f.pgid fun o ho => hO o (Multiset.mem_cons_of_mem (Multiset.mem_add.2 (.inr ho)))
    show s.txidOf f.pgid :: c.stack.map _ = f.txid :: c.txids
    rw [hf, hc]

/-- Each branch of the path has the page below it in the slot. -/
theorem Resident.ctx_linked (h : Resident env O s) {d D : ℕ} (c : Ctx d D) (hole slotId : Nat)
    (hO : ∀ o ∈ c.objs hole, o ∈ O) : BTreeIterator.Linked s ((hole, slotId) :: c.stack) := by
  induction c generalizing hole slotId with
  | top => trivial
  | under f c ih =>
    refine ⟨?_, ih f.pgid f.esL.length fun o ho =>
      hO o (Multiset.mem_cons_of_mem (Multiset.mem_add.2 (.inr ho)))⟩
    refine h.getLeftChild (hO _ (Multiset.mem_cons_self _ _)) ?_
    rw [← f.lenL, ← List.length_map (f := Tree.pgid)]
    simp

theorem Ctx.getLast?_stack {d D : ℕ} (c : Ctx d D) (hole slotId : Nat) :
    ((hole, slotId) :: c.stack).getLast?.map Prod.fst = some (c.rootId hole) := by
  induction c generalizing hole slotId with
  | top => rfl
  | under f c ih =>
    show ((hole, slotId) :: (f.pgid, f.esL.length) :: c.stack).getLast?.map Prod.fst = _
    rw [List.getLast?_cons_cons]
    exact ih f.pgid f.esL.length

theorem Ctx.Alike.rootFull {d D : ℕ} {c c' : Ctx d D} (h : Ctx.Alike c c') {t t' : Tree d}
    (ht : t.RootFull → t'.RootFull) (ht' : t.Full → t'.Full) (hfull : (c.plug t).RootFull) :
      (c'.plug t').RootFull := by
  cases h with
  | top => exact ht hfull
  | under f pgid txid hc =>
    obtain ⟨hctx, hleaf⟩ := (Ctx.rootFull_under f _ t).1 hfull
    exact (Ctx.rootFull_under _ _ t').2
      ⟨(Ctx.Alike.under f pgid txid hc).full_iff.2 hctx, ht' hleaf⟩

end Pages

/-! ## The result of the loop -/

section Result

variable {Γ : Scope} {b D : ℕ} {t : Tree D} {O : Multiset Obj} {s : TxState}

/-- The tree is the same on the new path. -/
theorem WellFormed.of_copied {p : Place D} {c : Ctx 0 D} {pgid txid : Nat}
    (h : WellFormed Γ b (.tree p.tree) O s) (halike : Ctx.Alike p.ctx c) {b' : ℕ} {s' : TxState}
    (hown : Own Γ b' (c.rootId pgid) (.node pgid (.leaf txid p.entries) ::ₘ (c.objs pgid + O)) s')
    (hfree : c.Free Γ.keep) (hsides : c.SidesSafe Γ.need Γ.keep) (hkeep : ¬ Γ.keep pgid) :
    ∃ t' : Shape, WellFormed Γ b' t' O s' ∧ t'.flat = (Shape.tree p.tree).flat := by
  have hflat : (c.plug (.leaf pgid txid p.entries)).flat = p.tree.flat := by
    unfold Place.tree
    rw [Ctx.flat_plug, Ctx.flat_plug, halike.before_eq, halike.after_eq]
    rfl
  refine ⟨.tree (c.plug (.leaf pgid txid p.entries)), ⟨?_, ?_, ?_, ?_⟩, hflat⟩
  · show Own Γ b' (c.plug (.leaf pgid txid p.entries)).pgid
      ((c.plug (.leaf pgid txid p.entries)).objs + O) s'
    rw [Ctx.pgid_plug, Ctx.objs_plug, Tree.objs_leaf]
    refine hown.perm ?_
    simp only [Tree.pgid_leaf, ← Multiset.singleton_add]
    abel
  · show List.Pairwise _ (c.plug (.leaf pgid txid p.entries)).flat
    rw [hflat]
    exact h.ordered
  · exact halike.rootFull (t := .leaf p.pgid p.txid p.entries) (fun _ => trivial)
      (fun hf => hf) h.full
  · exact Ctx.safe_plug c _ hfree hsides fun hk => absurd hk hkeep

/-- **Path copying.** The path of every iterator of `LowerBound` can be written afterwards exactly
when all that is above an exempt page is exempt. -/
theorem pathWritable_iff (h : WellFormed Γ (b + (D + 1)) (.tree t) O s) (key : Bytes) :
    ∃ iter, BTree.lowerBound Γ.env key s = (.ok iter, s) ∧
      Exec.Ok (BTreeIterator.copyAllPagesByPath Γ.env iter) s fun iter' s' =>
        (PathWritable Γ b (.tree t) O iter' s' ↔ iter.ExemptUpwards Γ.env s) := by
  obtain ⟨p, status, hp, -, hlower⟩ := h.own.treeLowerBound h.ordered h.full key
  obtain rfl := hp.tree_eq
  refine ⟨_, hlower, ?_⟩
  obtain ⟨iter, s', hcopy, c, pgid, txid, rfl, hcopied, hfree, hsides, hkeep, h₁, -⟩ :=
    Own.copyAllPagesByPath p status h.own h.safe
  refine Exec.Ok.intro _ s' hcopy ?_
  -- the transactions of the path before and after
  have hbefore : BTreeIterator.pathTxids ⟨p.stack, status⟩ s = p.txid :: p.ctx.txids := by
    have hres := h.own.resident
    have hobjs : p.tree.objs = p.ctx.objs p.pgid + {Obj.node p.pgid (.leaf p.txid p.entries)} :=
      Ctx.objs_plug _ _
    have hleaf := hres.txidOf (Multiset.mem_add.2 (.inl p.leaf_mem))
    have hctx := hres.ctx_txids p.ctx p.pgid fun o ho =>
      Multiset.mem_add.2
        (.inl
          (by
            rw [show (Shape.tree p.tree).objs = _ from hobjs]; exact Multiset.mem_add.2 (.inl ho)))
    show s.txidOf p.pgid :: p.ctx.stack.map _ = _
    rw [hleaf, hctx]
  have hafter : BTreeIterator.pathTxids ⟨(pgid, p.left.length) :: c.stack, status⟩ s' =
      txid :: c.txids := by
    have hres := h₁.resident
    have hleaf := hres.txidOf (Multiset.mem_cons_self _ _)
    have hctx := hres.ctx_txids c pgid fun o ho =>
      Multiset.mem_cons_of_mem (Multiset.mem_add.2 (.inl ho))
    show s'.txidOf pgid :: c.stack.map _ = _
    rw [hleaf, hctx]
  have htxids : ∀ u, Γ.need u = false ↔ Exempt Γ.env Γ.txid u := fun u => copyNeeded_eq_false_iff ..
  have hpages : (∀ x ∈ (pgid, p.left.length) :: c.stack,
      BTreeIterator.copyNeeded Γ.env s'.metaStruct.txid (s'.txidOf x.1) = false) ↔
        BTreeIterator.ExemptUpwards Γ.env ⟨p.stack, status⟩ s := by
    unfold BTreeIterator.ExemptUpwards
    rw [hbefore, h.own.txid_eq, h₁.txid_eq]
    have hkey := forall_copiedTxids_iff Γ.need_self (p.txid :: p.ctx.txids)
    rw [← hcopied.txids_eq, ← hafter] at hkey
    simp only [htxids] at hkey
    rw [← hkey]
    unfold BTreeIterator.pathTxids
    rw [List.forall_mem_map]
    simp only [copyNeeded_eq_false_iff]
  constructor
  · exact fun hw => hpages.1 hw.pages
  · intro hex
    refine ⟨hpages.2 hex, ?_, ?_, ?_⟩
    · exact h₁.resident.ctx_linked c pgid p.left.length fun o ho =>
        Multiset.mem_cons_of_mem (Multiset.mem_add.2 (.inl ho))
    · rw [c.getLast?_stack, h₁.root]
    · exact h.of_copied hcopied.alike h₁ hfree hsides hkeep

end Result

/-! ## Two paths -/

deriving instance DecidableEq for BTreeIterator

/-- The transaction after the one that wrote the two leaves. -/
def nextMeta : MetaInfo := { freshMeta with txid := 2 }

/-- Both pages of the path are copied. -/
theorem pathWritable_twoLeaves :
    ∃ iter, BTree.lowerBound smallEnv [9] (layout 256 nextMeta 4 twoLeaves.nodes) =
        (.ok iter, layout 256 nextMeta 4 twoLeaves.nodes) ∧
      Exec.Ok (BTreeIterator.copyAllPagesByPath smallEnv iter)
        (layout 256 nextMeta 4 twoLeaves.nodes) fun iter' s' =>
        PathWritable (layoutScope smallEnv smallEnv_ok nextMeta 3) 0
          (.tree twoLeaves) 0 iter' s' := by
  have hwf : WellFormed (layoutScope smallEnv smallEnv_ok nextMeta 3) (0 + (1 + 1))
      (.tree twoLeaves) 0 (layout 256 nextMeta 4 twoLeaves.nodes) :=
    wellFormed_layout (t := twoLeaves) (by decide) (by decide) (by decide) (by decide)
      (by unfold kPageMaxCount; show 3 + 2 + 2 ≤ _; omega)
  obtain ⟨iter, hlower, hcopy⟩ := pathWritable_iff hwf [9]
  obtain ⟨iter', s', hrun, hiff⟩ := hcopy
  refine ⟨iter, hlower, Exec.Ok.intro iter' s' hrun (hiff.2 ?_)⟩
  have hiter : (BTree.lowerBound smallEnv [9] (layout 256 nextMeta 4 twoLeaves.nodes)).1 =
      .ok ⟨[(3, 1), (4, 1)], .kEq⟩ := by decide +kernel
  obtain rfl : iter = ⟨[(3, 1), (4, 1)], .kEq⟩ :=
    Except.ok.inj ((congrArg Prod.fst hlower).symm.trans hiter)
  show BTreeIterator.ExemptUpwards smallEnv ⟨[(3, 1), (4, 1)], .kEq⟩
    (layout 256 nextMeta 4 twoLeaves.nodes)
  decide +kernel

/-- The environment behind a checkpoint of transaction 1, when transaction `minViewTxid` is the
oldest one in view. -/
def checkpointedEnv (minViewTxid : Nat) : Env :=
  { smallEnv with minViewTxid := minViewTxid, persistedTxid := 1 }

/-- The next transaction begins. -/
def begun (minViewTxid : Nat) (s : TxState) : TxState :=
  { s with
    pager := s.pager.release (minViewTxid - 1)
    metaStruct := { s.metaStruct with txid := s.metaStruct.txid + 1 } }

/-- Behind the checkpoint transaction 2 has written the left leaf, transaction 3 the right one,
and transaction 4
    has begun; no view is open. -/
def interleaved : TxState :=
  let s₂ := (BTree.put (checkpointedEnv 1) [1] longValue false (begun 1 twoLeavesState)).2
  let s₃ := (BTree.put (checkpointedEnv 2) [9] longValue false (begun 2 s₂)).2
  begun 3 s₃

/-- The iterator of `LowerBound` at the record of the left leaf. -/
def leftPath : BTreeIterator := ⟨[(5, 0), (8, 0)], .kEq⟩

/-- **A path that cannot be written**: the leaf of transaction 2 is exempt, the root of transaction
3 is not, and it is not copied. -/
theorem not_pathWritable : (BTree.lowerBound (checkpointedEnv 3) [1] interleaved).1 = .ok leftPath ∧
    (BTreeIterator.copyAllPagesByPath (checkpointedEnv 3) leftPath interleaved).1 = .ok leftPath ∧
    ∀ (Γ : Scope) (b : ℕ) (t : Shape) (O : Multiset Obj), Γ.env = checkpointedEnv 3 →
      ¬ PathWritable Γ b t O leftPath
        (BTreeIterator.copyAllPagesByPath (checkpointedEnv 3) leftPath interleaved).2 := by
  refine ⟨by decide +kernel, by decide +kernel, fun Γ b t O henv h => ?_⟩
  have hroot := h.pages (8, 0) (by decide)
  rw [henv] at hroot
  have hneeded : BTreeIterator.copyNeeded (checkpointedEnv 3)
      (BTreeIterator.copyAllPagesByPath (checkpointedEnv 3) leftPath interleaved).2.metaStruct.txid
      ((BTreeIterator.copyAllPagesByPath (checkpointedEnv 3) leftPath interleaved).2.txidOf 8) =
        true := by
    decide +kernel
  rw [hneeded] at hroot
  cases hroot

end AtomKV
