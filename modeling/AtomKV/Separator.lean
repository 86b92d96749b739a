import AtomKV.Merge
import AtomKV.BranchUpdate

/-!
# Replacing a separator

After a record or a child has moved between two siblings, the key between them changes.
`BranchNode::Update` stores the new key when the branch has room for it; otherwise the separator and
the right sibling are taken out of the branch and inserted again, like the right half of a split.
Two things can go wrong: an update of a key in overflow pages spoils the header of the branch, and
the insertion can meet a split that needs its second try.
-/

set_option autoImplicit false

namespace AtomKV

/-- The separator can be replaced by `key`; `above` are the keys of the branches further up. -/
def Joint.Takes (P : Nat) (j : Joint) (above : List (List Entry × List Entry))
    (key : Bytes) : Prop :=
  if Fits P (j.left ++ j.right) key [] then ¬ Node.maxInline P < j.separator.size
  else RisesCleanly P ((j.left, j.right) :: above) key

instance (P : Nat) (j : Joint) (above : List (List Entry × List Entry)) (key : Bytes) :
    Decidable (j.Takes P above key) :=
  inferInstanceAs
    (Decidable (if Fits P (j.left ++ j.right) key [] then ¬ Node.maxInline P < j.separator.size
    else RisesCleanly P ((j.left, j.right) :: above) key))

/-! ## States without a tree -/

/-- No well-formed tree is in the state. -/
def Spoilt (Γ : Scope) (s : TxState) : Prop :=
  ∀ (b : ℕ) (t : Shape) (O : Multiset Obj), ¬ WellFormed Γ b t O s

theorem TxState.SharesChild.spoilt {Γ : Scope} {s : TxState} (h : s.SharesChild) : Spoilt Γ s :=
  fun _ _ _ hwf => hwf.not_sharesChild h

/-- A branch on a path that miscounts. -/
theorem HoldsMiscounted.spoilt {Γ : Scope} {b q d D : ℕ} {c : Ctx d D} {O : Multiset Obj}
    {s : TxState} (h : HoldsMiscounted Γ b (c.rootId q) q (c.objs q + O) s) : Spoilt Γ s := by
  intro b' t O' hwf
  obtain ⟨n, R, hn, hown⟩ := h
  have hpage : s.pager.pages q = .node n := hown.rep _ (Multiset.mem_cons_self _ _)
  have hne : q ≠ kPageInvalidId := by
    have h1 := (hown.page_lt (Own.page_pos q (.node n))).2
    have h2 := hown.room
    unfold kPageMaxCount at h2
    unfold kPageInvalidId
    omega
  have hreach : s.Reaches q := by
    refine Own.reaches_hole c q (O := .page q (.node n) ::ₘ (R + O)) (hown.perm ?_)
    simp only [← Multiset.singleton_add]
    abel
  obtain ⟨v, hv⟩ := (hwf.of_reaches hreach).resolve_left hne
  obtain ⟨n', hrep, -, hpage', -⟩ := hwf.own.read_of_mem (Multiset.mem_add.2 (.inl hv))
  obtain rfl : n = n' := Page.node.inj (hpage.symm.trans hpage')
  exact hn.2 hrep.sized.used

/-! ## The two forms of the update -/

/-- `parent.UpdateKey(slot_id, key)`, or `parent.Update(slot_id, key,
parent.GetLeftChild(slot_id), false)`. -/
def UpdatesSeparator (env : Env) (parent slotId : Nat) (key : Bytes) (child : Nat)
    (update : TxM Bool) : Prop :=
  update = BranchNode.updateKey env parent slotId key ∨
    update = BranchNode.update env parent slotId key child false

/-- The end of a rebalancing by a move; `update` is one of the two forms. -/
def BTree.replaceSeparator (env : Env) (update : TxM Bool) (parent slotId : Nat)
    (rest : List (Nat × Nat)) (left right : Nat) (key : Bytes) : TxM Unit := do
  let success ← update
  if !success then reinsert env parent slotId rest left right key

namespace UpdatesSeparator

variable {Γ : Scope} {b r : ℕ} {O : Multiset Obj} {s : TxState} {q t : Nat} {es₁ es₂ : List Entry}
  {e : Entry} {ks₁ ks₂ : List Nat} {child : Nat} {key : Bytes} {update : TxM Bool}

theorem ok (hu : UpdatesSeparator Γ.env q es₁.length key child update)
    (h : Own Γ (b + recordPages Γ.P key []) r
      (.node q (.branch t (es₁ ++ e :: es₂) (ks₁ ++ child :: ks₂)) ::ₘ O) s)
    (hq : ¬ Γ.keep q) (hks : ks₁.length = es₁.length) (hadm : Admissible Γ.P key [])
    (hinline : ¬ Node.maxInline Γ.P < e.size) (hfit : Fits Γ.P (es₁ ++ es₂) key []) :
    ∃ s' bucket run, update s = (.ok true, s') ∧
      Own Γ b r
        (.node q (.branch t (es₁ ++ ⟨key, [], bucket, run⟩ :: es₂) (ks₁ ++ child :: ks₂)) ::ₘ O)
          s' := by
  obtain ⟨_, s₁, hrun, rfl, ⟨bucket, run, h₁⟩, -⟩ := h.branchUpdateKey_ok hq hadm hinline hfit
  rw [recordsOf_cons_inline Γ.P hinline, recordsOf_nil, zero_add] at h₁
  rcases hu with rfl | rfl
  · exact ⟨s₁, bucket, run, hrun, h₁⟩
  · obtain ⟨s₂, hput, h₂⟩ := h₁.putChild hq (k := es₁.length) (by simp) child false
    have hsame : (ks₁ ++ child :: ks₂).set (childAt es₁.length false) child =
        ks₁ ++ child :: ks₂ := by
      rw [← hks]
      exact ListAt.set_length ks₁ ks₂ child child
    rw [hsame] at h₂
    refine ⟨s₂, bucket, run, ?_, h₂⟩
    rw [BranchNode.update_stored hrun, Exec.bind_of_ok hput]
    rfl

theorem refused (hu : UpdatesSeparator Γ.env q es₁.length key child update) {kids : List Nat}
    (h : Own Γ b r (.node q (.branch t (es₁ ++ e :: es₂) kids) ::ₘ O) s) (hq : ¬ Γ.keep q)
    (hfit : ¬ Fits Γ.P (es₁ ++ es₂) key []) : update s = (.ok false, s) := by
  have hrefused := h.branchUpdateKey_refused hq hfit
  rcases hu with rfl | rfl
  · exact hrefused
  · unfold BranchNode.update
    rw [Exec.bind_of_ok hrefused]
    rfl

theorem spoils (hu : UpdatesSeparator Γ.env q es₁.length key child update) {kids : List Nat}
    (h : Own Γ (b + recordPages Γ.P key []) r (.node q (.branch t (es₁ ++ e :: es₂) kids) ::ₘ O) s)
    (hq : ¬ Γ.keep q) (hadm : Admissible Γ.P key []) (hover : Node.maxInline Γ.P < e.size)
    (hfit : Fits Γ.P (es₁ ++ es₂) key []) {success : Bool} {s' : TxState}
    (hrun : update s = (.ok success, s')) : success = true ∧ HoldsMiscounted Γ b r q O s' := by
  rcases hu with rfl | rfl
  · exact h.branchUpdateKey_spoils hq hadm hover hfit hrun
  · obtain ⟨stored, s₁, hupdate, -⟩ := Exec.bind_eq_ok hrun
    obtain ⟨rfl, n, R, hn, h₁⟩ := h.branchUpdateKey_spoils hq hadm hover hfit hupdate
    rw [BranchNode.update_stored hupdate] at hrun
    obtain ⟨u, s₂, hput, hreturn⟩ := Exec.bind_eq_ok hrun
    obtain ⟨hsuccess, rfl⟩ := Prod.mk.inj hreturn
    refine ⟨(Except.ok.inj hsuccess).symm, ?_⟩
    exact HoldsMiscounted.putChild ⟨n, R, hn, h₁⟩ hq hput

end UpdatesSeparator

/-! ## The replacement -/

/-- Besides the objects `O` the state holds a tree with the in-order sequence `items`. -/
def HoldsFlat (Γ : Scope) (b : ℕ) (items : List Item) (O : Multiset Obj) (s : TxState) : Prop :=
  ∃ (D : ℕ) (t : Tree D) (G : Multiset Obj), JunkOnly G ∧ Own Γ b t.pgid (t.objs + (G + O)) s ∧
    t.flat = items ∧ t.RootFull ∧ t.Safe Γ.need Γ.keep

section Replace

variable {Γ : Scope} {b : ℕ} {O : Multiset Obj} {s : TxState} {d D : ℕ} {c : Ctx (d + 1) D}
  {g : Frame d} {j : Joint} {tl tr : Tree d} {key : Bytes} {update : TxM Bool}

/-- The new separator finds room in the branch. -/
theorem replaceSeparator_stored {u : Entry}
    (hu : UpdatesSeparator Γ.env g.pgid g.esL.length key tl.pgid update)
    (hg : g.Sound Γ c) (hl : tl.Sound Γ) (hr : tr.Sound Γ) (hadm : Admissible Γ.P key [])
    (hfit : Fits Γ.P (g.esL ++ g.esR) key []) (rest : List (Nat × Nat))
    (h : Own Γ (b + recordPages Γ.P key []) (c.rootId g.pgid)
      (g.two u tl.pgid tr.pgid ::ₘ (g.sideObjs + c.objs g.pgid + (tl.objs + tr.objs + O))) s) :
    (¬ Node.maxInline Γ.P < u.size →
      Exec.Ok (BTree.replaceSeparator Γ.env update g.pgid g.esL.length rest tl.pgid tr.pgid key)
        s fun _ s' => HoldsFlat Γ b
          ((Ctx.under g c).before ++ (tl.flat ++ .separator key :: tr.flat) ++
            (Ctx.under g c).after) O s') ∧
    (Node.maxInline Γ.P < u.size → ∀ s',
      BTree.replaceSeparator Γ.env update g.pgid g.esL.length rest tl.pgid tr.pgid key s =
        (.ok (), s') → Spoilt Γ s') := by
  have hlen : (g.ksL.map Tree.pgid).length = g.esL.length := by rw [List.length_map, g.lenL]
  unfold BTree.replaceSeparator
  constructor
  -- An old separator in the page is replaced, and the path above is as before.
  · intro hinline
    obtain ⟨s', bucket, run, hrun, h'⟩ := hu.ok h hg.free hlen hadm hinline hfit
    have hsound := hg.above.plug (hg.fillTwo ⟨key, [], bucket, run⟩ hl hr)
    refine Exec.Ok.intro () s' ?_
      ⟨D, c.plug (g.fillTwo ⟨key, [], bucket, run⟩ tl tr), 0, JunkOnly.zero, ?_, ?_,
        hsound.full.rootFull, hsound.safe⟩
    · rw [Exec.bind_of_ok hrun]
      rfl
    · rw [Ctx.pgid_plug, Ctx.objs_plug, g.objs_fillTwo]
      refine h'.perm ?_
      show g.two ⟨key, [], bucket, run⟩ tl.pgid tr.pgid ::ₘ _ = c.objs g.pgid + _ + _
      simp only [← Multiset.singleton_add]
      abel
    · rw [Ctx.flat_plug, g.flat_fillTwo]
      simp only [Ctx.before, Ctx.after, List.append_assoc]
  -- One in overflow pages leaves a wrong `space_used`, which no tree can have.
  · intro hover s' hrun
    obtain ⟨success, s₁, hupdate, hrest⟩ := Exec.bind_eq_ok hrun
    obtain ⟨rfl, n, R, hn, hown⟩ := hu.spoils h hg.free hadm hover hfit hupdate
    obtain rfl := (Prod.mk.inj hrest).2
    refine HoldsMiscounted.spoilt (c := c) (b := b) (O := g.sideObjs + (tl.objs + tr.objs + O))
      ⟨n, R, hn, hown.perm ?_⟩
    simp only [← Multiset.singleton_add]
    abel

/-- The new separator finds no room: the old one goes out with the right tree, and both come in
again. -/
theorem replaceSeparator_reinserted {u : Entry}
    (hu : UpdatesSeparator Γ.env g.pgid g.esL.length key tl.pgid update)
    (hg : g.Sound Γ c) (hl : tl.Sound Γ) (hr : tr.Sound Γ) (hdepth : D < kStackSize)
    (hadm : Admissible Γ.P key []) (hfit : ¬ Fits Γ.P (g.esL ++ g.esR) key [])
    (h : Own Γ (b + levelsRoom Γ.P (Ctx.under g c).levels) (c.rootId g.pgid)
      (g.two u tl.pgid tr.pgid ::ₘ (g.sideObjs + c.objs g.pgid + (tl.objs + tr.objs + O))) s) :
    Exec.Ok (BTree.replaceSeparator Γ.env update g.pgid g.esL.length c.stack tl.pgid tr.pgid key)
      s fun _ s' => (RisesCleanly Γ.P (Ctx.under g c).levels key →
        HoldsFlat Γ b ((Ctx.under g c).before ++ (tl.flat ++ .separator key :: tr.flat) ++
          (Ctx.under g c).after) O s') ∧
      (¬ RisesCleanly Γ.P (Ctx.under g c).levels key → Spoilt Γ s') := by
  have hlen : (g.ksL.map Tree.pgid).length = g.esL.length := by rw [List.length_map, g.lenL]
  obtain ⟨s₁, hdelete, h₁, -⟩ := h.branchDelete_right hg.free hlen
  have hpush : BTreeIterator.push ⟨c.stack, .kEq⟩ (g.pgid, g.esL.length) s₁ =
      (.ok ⟨(Ctx.under g c).stack, .kEq⟩, s₁) := by
    refine Readable.push_ok _ _ _ ?_
    have := c.length_stack
    omega
  obtain ⟨_, s', hrun, hgood, hbad⟩ :=
    putBranch_ok (Ctx.under g c) hg.free_under hadm tl.pgid tr.pgid
    (b := b) (O := tl.objs + tr.objs + O) (s := s₁) (h₁.perm (by
      show g.obj tl.pgid ::ₘ _ = (g.obj tl.pgid ::ₘ (g.sideObjs + c.objs g.pgid)) + _
      rw [Multiset.cons_add]))
  refine Exec.Ok.intro () s' ?_ ⟨fun hrises => ?_, fun hnot => (hbad hnot).spoilt⟩
  · unfold BTree.replaceSeparator
    rw [Exec.bind_of_ok (hu.refused h hg.free hfit)]
    simp only [Bool.not_false, if_true]
    unfold BTree.reinsert BTree.reinsertWith
    rw [Exec.bind_of_ok hdelete, Exec.bind_of_ok hpush]
    exact hrun
  · obtain ⟨D', root, N, hown, -, -, hjoins⟩ := hgood hrises
    obtain ⟨t, hroot, hobjs, hflat, hfull, hsafe⟩ := hjoins tl tr rfl rfl
    -- a branch without room has a key
    have hne : g.esL ++ g.esR ≠ [] := fun hnil => hfit (by
      rw [hnil]
      refine fits_of_half Γ.hP ?_ key []
      simp)
    refine ⟨D', t, 0, JunkOnly.zero, ?_, hflat,
      (hfull (hg.full_under hne) hl.full hr.full).rootFull, hsafe hg.sides_under hl.safe hr.safe⟩
    rw [hroot, hobjs]
    refine hown.perm ?_
    abel

/-- **Replacing the separator.** -/
theorem replaceSeparator_ok (hu : UpdatesSeparator Γ.env g.pgid g.esL.length key tl.pgid update)
    (hleft : g.esL = j.left) (hright : g.esR = j.right) (hg : g.Sound Γ c)
    (hl : tl.Sound Γ) (hr : tr.Sound Γ) (hdepth : D < kStackSize) (hadm : Admissible Γ.P key [])
    (h : Own Γ (b + levelsRoom Γ.P (Ctx.under g c).levels) (c.rootId g.pgid)
      (g.two j.separator tl.pgid tr.pgid ::ₘ (g.sideObjs + c.objs g.pgid + (tl.objs + tr.objs + O)))
        s) :
    (j.Takes Γ.P c.levels key →
      Exec.Ok (BTree.replaceSeparator Γ.env update g.pgid g.esL.length c.stack tl.pgid tr.pgid key)
        s fun _ s' => HoldsFlat Γ b
          ((Ctx.under g c).before ++ (tl.flat ++ .separator key :: tr.flat) ++
            (Ctx.under g c).after) O s') ∧
    (¬ j.Takes Γ.P c.levels key → ∀ s',
      BTree.replaceSeparator Γ.env update g.pgid g.esL.length c.stack tl.pgid tr.pgid key s =
        (.ok (), s') → Spoilt Γ s') := by
  unfold Joint.Takes
  rw [← hleft, ← hright]
  by_cases hfit : Fits Γ.P (g.esL ++ g.esR) key []
  · rw [if_pos hfit]
    have hroom : recordPages Γ.P key [] ≤ levelsRoom Γ.P (Ctx.under g c).levels := by
      have := recordPages_le_one Γ.P_pos hadm
      have h2 : levelsRoom Γ.P (Ctx.under g c).levels =
        2 + 2 * entriesPages Γ.P (g.esL ++ g.esR) + levelsRoom Γ.P c.levels := rfl
      omega
    obtain ⟨hok, hbad⟩ := replaceSeparator_stored hu hg hl hr hadm hfit c.stack
      (h.room_mono _ (Nat.add_le_add_left hroom b))
    exact ⟨hok, fun hnot => hbad (not_not.1 hnot)⟩
  · rw [if_neg hfit]
    obtain ⟨_, s', hrun, hgood, hbad⟩ := replaceSeparator_reinserted hu hg hl hr hdepth hadm hfit h
    refine ⟨fun hrises => Exec.Ok.intro () s' hrun (hgood hrises), fun hnot s'' hrun' => ?_⟩
    obtain rfl := (Prod.mk.inj (hrun.symm.trans hrun')).2
    exact hbad hnot

end Replace

end AtomKV
