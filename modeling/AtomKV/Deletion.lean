import AtomKV.LeafBalance

/-!
# The way up of a deletion

Two children of a branch have become one, and the branch has lost the separator between them.
`BTree::Delete` goes on with the branch and its sibling, and so on up to the root. The tree that
remains has the same in-order sequence, or an assertion fails, or no tree remains. Which of these it
is, is what `Mends` computes from the keys.
-/

set_option autoImplicit false

namespace AtomKV

/-- A branch that may be written, above sound children; it need not have a key. -/
def Tree.Open (Γ : Scope) : {d : ℕ} → Tree d → Prop
  | 0, _ => False
  | _ + 1, t => ¬ Γ.keep t.pgid ∧ ∀ k ∈ BranchNodeT.kids t, k.Sound Γ

theorem Tree.Open.sound {Γ : Scope} {d : ℕ} {t : Tree d} (h : t.Open Γ) (hne : t.entries ≠ []) :
    t.Sound Γ := by
  cases d with
  | zero => exact absurd h id
  | succ d =>
    obtain ⟨p, txid, es, kids, len, rfl⟩ := t.exists_branch
    exact Tree.Sound.branch h.1 hne h.2

theorem Ctx.Sound.under {Γ : Scope} {d D : ℕ} {f : Frame d} {c : Ctx (d + 1) D}
    (h : (Ctx.under f c).Sound Γ) : c.Sound Γ :=
  ⟨h.free.2, h.full.2, h.sides.2.2⟩

theorem Ctx.keys_sides {d D : ℕ} (c : Ctx d D) : c.sides.map Level.keys = c.levels := by
  induction c with
  | top => rfl
  | under f c ih => exact congrArg ((f.esL, f.esR) :: ·) ih

theorem Ctx.mendRoom_under (P : Nat) {d D : ℕ} (f : Frame d) (c : Ctx (d + 1) D) :
    mendRoom P (Ctx.under f c).sides = 2 + entriesPages P f.level.leftKid + entriesPages P
      f.level.rightKid + (2 + 2 * entriesPages P (f.esL ++ f.esR) + levelsRoom P c.levels) +
        mendRoom P c.sides := by
  rw [← c.keys_sides]
  rfl

/-- The keys beside a separator are keys of the branch, and the sibling is one of the children next
to the path. -/
theorem Level.joint_pages (P : Nat) {l : Level} {j : Joint} (h : l.joint = some j) :
    entriesPages P (j.left ++ j.right) ≤ entriesPages P (l.left ++ l.right) ∧
      entriesPages P j.sibling ≤ entriesPages P l.leftKid + entriesPages P l.rightKid := by
  obtain ⟨left, right, leftKid, rightKid⟩ := l
  unfold Level.joint at h
  cases right with
  | cons u right =>
    obtain rfl := Option.some.inj h
    simp only [entriesPages_append, entriesPages_cons]
    omega
  | nil =>
    obtain ⟨u, hu, rfl⟩ := Option.map_eq_some_iff.1 h
    obtain ⟨left, rfl⟩ := List.getLast?_eq_some_iff.1 hu
    simp

section WayUp

variable {Γ : Scope} {b : ℕ} {O : Multiset Obj} {s : TxState}

/-- A whole tree is there. -/
theorem HoldsFlat.of_sound {D : ℕ} {t : Tree D} (hsound : t.Sound Γ)
    (h : Own Γ b t.pgid (t.objs + O) s) : HoldsFlat Γ b t.flat O s :=
  ⟨D, t, 0, JunkOnly.zero, by rwa [zero_add], rfl, hsound.full.rootFull, hsound.safe⟩

/-- The tree in the hole of a path. -/
theorem HoldsFlat.plug {d D : ℕ} {c : Ctx d D} {t : Tree d} (hc : c.Sound Γ) (ht : t.Sound Γ)
    (h : Own Γ b (c.rootId t.pgid) (t.objs + (c.objs t.pgid + O)) s) :
    HoldsFlat Γ b (c.before ++ t.flat ++ c.after) O s := by
  rw [List.append_assoc, ← Ctx.flat_plug]
  refine .of_sound (hc.plug ht) ?_
  rw [Ctx.pgid_plug, Ctx.objs_plug]
  refine h.perm ?_
  abel

theorem HoldsFlat.junk {items : List Item} {G : Multiset Obj} (hG : JunkOnly G)
    (h : HoldsFlat Γ b items (G + O) s) : HoldsFlat Γ b items O s := by
  obtain ⟨D, t, G', hG', hown, hflat, hfull, hsafe⟩ := h
  refine ⟨D, t, G' + G, fun o ho => ?_, hown.perm (by rw [add_assoc]), hflat, hfull, hsafe⟩
  rcases Multiset.mem_add.1 ho with ho | ho
  · exact hG' o ho
  · exact hG o ho

/-- A root without keys gives way to its child. -/
theorem balanceUp_collapse {p txid child : Nat}
    (h : Own Γ b p (.node p (.branch txid [] [child]) ::ₘ O) s) :
    ∃ s' G, BTree.balanceUp Γ.env [] p s = (.ok (), s') ∧ JunkOnly G ∧
      Own Γ b child (G + O) s' := by
  have hm : Obj.node p (.branch txid [] ([] ++ [child])) ∈
      .node p (.branch txid [] [child]) ::ₘ O :=
    Multiset.mem_cons_self _ _
  have hcount : Node.countOf p s = (.ok 0, s) := h.countOf hm
  have hroot : p = s.rootPgid := h.root.symm
  obtain ⟨s', G, hfree, hG, h'⟩ := (h.setRoot child).freeNode
  refine ⟨s', G, ?_, hG, h'⟩
  rw [BTree.balanceUp]
  unfold assert
  rw [Exec.bind_of_ok hcount, if_pos rfl, Exec.read_bind, Exec.require_bind hroot,
    Exec.bind_of_ok (h.getTailChild hm), Exec.change_bind]
  exact hfree

theorem balanceUp_root {D : ℕ} {t : Tree D} (ht : t.Open Γ) (h : Own Γ b t.pgid (t.objs + O) s) :
    Exec.Ok (BTree.balanceUp Γ.env [] t.pgid) s fun _ s' => HoldsFlat Γ b t.flat O s' := by
  cases D with
  | zero => exact absurd ht id
  | succ D =>
    obtain ⟨p, txid, es, kids, len, rfl⟩ := t.exists_branch
    have hm : Obj.node p (.branch txid es (kids.map Tree.pgid)) ∈
        (Tree.branch p txid es kids len).objs + O :=
      Multiset.mem_add.2 (.inl (by
        rw [Tree.objs_branch]
        exact Multiset.mem_cons_self _ _))
    cases es with
    | nil =>
      obtain ⟨k, rfl⟩ : ∃ k, kids = [k] := List.length_eq_one_iff.1 len
      have hk : k.Sound Γ := ht.2 k (List.mem_singleton_self k)
      obtain ⟨s', G, hrun, hG, h'⟩ := balanceUp_collapse
        (show Own Γ b p (.node p (.branch txid [] [k.pgid]) ::ₘ (k.objs + O)) s from h.perm (by
          rw [Tree.objs_branch]
          simp))
      refine Exec.Ok.intro () s' hrun ⟨D, k, G, hG, h'.perm ?_, ?_, hk.full.rootFull, hk.safe⟩
      · abel
      · rw [Tree.flat_branch]
        simp [weave_singleton]
    | cons e es =>
      refine Exec.Ok.intro () s ?_ (.of_sound (ht.sound (List.cons_ne_nil e es)) h)
      rw [BTree.balanceUp,
        Exec.bind_of_ok (show Node.countOf (Tree.branch p txid (e :: es) kids len).pgid s = _ from
        h.countOf hm)]
      exact congrFun (if_neg (Nat.succ_ne_zero _)) s

/-- The end of a rebalancing by a move. -/
theorem rotated_ok {d D : ℕ} {c : Ctx (d + 1) D} {f g : Frame d} {t k : Tree d} {j : Joint}
    {newKey : Bytes} {tl tr : Tree d} {update : TxM Bool} (hpair : Paired Γ c f t j g k)
    (hrot : Rotated Γ (j.first t k) (j.second t k) j.separator.key tl tr newKey)
    (hu : UpdatesSeparator Γ.env g.pgid g.esL.length newKey tl.pgid update)
    (hdepth : D < kStackSize) (hadm : Admissible Γ.P newKey [])
    (h : Own Γ (b + levelsRoom Γ.P (Ctx.under g c).levels) (c.rootId g.pgid)
      (g.two j.separator tl.pgid tr.pgid ::ₘ (tl.objs + tr.objs + (g.sideObjs + c.objs g.pgid + O)))
        s) :
    (j.Takes Γ.P c.levels newKey →
      Exec.Ok (BTree.replaceSeparator Γ.env update g.pgid g.esL.length c.stack tl.pgid
        tr.pgid newKey) s fun _ s' => HoldsFlat Γ b
          ((Ctx.under f c).before ++ t.flat ++ (Ctx.under f c).after) O s') ∧
    (¬ j.Takes Γ.P c.levels newKey → ∀ s',
      BTree.replaceSeparator Γ.env update g.pgid g.esL.length c.stack tl.pgid tr.pgid newKey s =
        (.ok (), s') → Spoilt Γ s') := by
  have hflat : (Ctx.under f c).before ++ t.flat ++ (Ctx.under f c).after =
      (Ctx.under g c).before ++ (tl.flat ++ .separator newKey :: tr.flat) ++
        (Ctx.under g c).after := by
    rw [hpair.flat_eq, hrot.flat_eq]
  rw [hflat]
  refine replaceSeparator_ok hu hpair.left_eq hpair.right_eq hpair.around hrot.left hrot.right
    hdepth hadm (h.perm ?_)
  simp only [← Multiset.singleton_add]
  abel

/-! ## A branch and its sibling -/

section Pair

variable {d D : ℕ} {c : Ctx (d + 2) D} {f g : Frame (d + 1)} {t k : Tree (d + 1)} {j : Joint}

theorem Joint.pgid_first {α : Type} (j : Joint) (p : α → Nat) (t k : α) :
    (if j.isLeft then p k else p t) = p (j.first t k) := by
  unfold Joint.first
  split <;> rfl

theorem Joint.pgid_second {α : Type} (j : Joint) (p : α → Nat) (t k : α) :
    (if j.isLeft then p t else p k) = p (j.second t k) := by
  unfold Joint.second
  split <;> rfl

/-- The branch takes a key and a child from its sibling. -/
theorem lendBranch_ok (hpair : Paired Γ c f t j g k) (ht : t.Open Γ) (hlends : j.Lends Γ.P)
    (hshort : 5 * fill Γ.P t.entries < 2 * (Γ.P - 18)) (hdepth : D < kStackSize)
    (h : Own Γ (b + levelsRoom Γ.P (Ctx.under g c).levels + 1) (c.rootId g.pgid)
      (g.two j.separator (j.first t k).pgid (j.second t k).pgid ::ₘ
        (t.objs + k.objs + (g.sideObjs + c.objs g.pgid + O))) s) :
    let run : TxM Unit := do
      let newKey ← BTree.rotateBranch Γ.env g.pgid g.esL.length t.pgid k.pgid
        j.sibling.length j.isLeft
      BTree.replaceSeparator Γ.env (BranchNode.updateKey Γ.env g.pgid g.esL.length newKey) g.pgid
        g.esL.length c.stack (j.first t k).pgid (j.second t k).pgid newKey
    (j.Takes Γ.P c.levels j.branchKey → Exec.Ok run s fun _ s' =>
        HoldsFlat Γ b ((Ctx.under f c).before ++ t.flat ++ (Ctx.under f c).after) O s') ∧
    (¬ j.Takes Γ.P c.levels j.branchKey → ∀ s', run s = (.ok (), s') → Spoilt Γ s') := by
  intro run
  obtain ⟨newKey, s₁, hrotate, rfl, hadm, tl, tr, hrot, h₁⟩ :=
    rotateBranch_ok hpair.sibling_eq hlends.2 hpair.around.free
    ht.1 hpair.writable ht.2 hpair.sound (by omega) h
  have hrun : run s = BTree.replaceSeparator Γ.env
      (BranchNode.updateKey Γ.env g.pgid g.esL.length j.branchKey) g.pgid
      g.esL.length c.stack tl.pgid tr.pgid j.branchKey s₁ := by
    rw [hrot.first_eq, hrot.second_eq]
    exact Exec.bind_of_ok hrotate
  obtain ⟨hok, hbad⟩ := rotated_ok hpair hrot (.inl rfl) hdepth hadm h₁
  exact ⟨fun htakes => Exec.Ok.of_run_eq hrun (hok htakes), fun hnot s' hs' =>
    hbad hnot s' (hrun.symm.trans hs')⟩

/-- The branch and its sibling become one, and their parent loses the separator. -/
theorem mergeBranch_up (hpair : Paired Γ c f t j g k) (ht : t.Open Γ) (hlends : ¬ j.Lends Γ.P)
    (hshort : 5 * fill Γ.P t.entries < 2 * (Γ.P - 18))
    (h : Own Γ (b + (entriesPages Γ.P t.entries + entriesPages Γ.P k.entries + 1)) (c.rootId g.pgid)
      (g.two j.separator (j.first t k).pgid (j.second t k).pgid ::ₘ
        (t.objs + k.objs + (g.sideObjs + c.objs g.pgid + O))) s) :
    let run : TxM Unit := do
      let downKey ← Node.getKey Γ.env g.pgid g.esL.length
      BTree.mergeBranch Γ.env (j.first t k).pgid (j.second t k).pgid downKey
      BTree.deleteBranch Γ.env c.stack g.pgid g.esL.length
    (j.Merges Γ.P t.entries → ∃ (m : Tree (d + 1)) (G : Multiset Obj) (s' : TxState),
      run s = BTree.balanceUp Γ.env c.stack g.pgid s' ∧ m.Sound Γ ∧ JunkOnly G ∧
        c.before ++ (g.fill m).flat ++ c.after =
          (Ctx.under f c).before ++ t.flat ++ (Ctx.under f c).after ∧
        Own Γ b (c.rootId g.pgid) ((g.fill m).objs + (c.objs g.pgid + (G + O))) s') ∧
    (¬ j.Merges Γ.P t.entries → Exec.Fails run s) := by
  intro run
  have hm : g.two j.separator (j.first t k).pgid (j.second t k).pgid ∈
      g.two j.separator (j.first t k).pgid (j.second t k).pgid ::ₘ
        (t.objs + k.objs + (g.sideObjs + c.objs g.pgid + O)) :=
    Multiset.mem_cons_self _ _
  have hkey : Node.getKey Γ.env g.pgid g.esL.length s = (.ok j.separator.key, s) :=
    h.getKey hm (by simp)
  have hadm : Admissible Γ.P j.separator.key [] :=
    h.key_admissible hm (show j.separator ∈ g.esL ++ j.separator :: g.esR by simp)
  have hpage : recordPages Γ.P j.separator.key [] ≤ 1 := recordPages_le_one Γ.P_pos hadm
  have hhalf : 2 * fill Γ.P k.entries ≤ Γ.P - 18 := by
    rw [hpair.sibling_eq]
    exact half_of_not_lends Γ.hP hlends
  have hslots := slotFits_pair Γ.hP hshort hhalf
  -- both orders of the two
  have hobjs : t.objs + k.objs = (j.first t k).objs + (j.second t k).objs := by
    unfold Joint.first Joint.second
    split
    · exact add_comm _ _
    · rfl
  have hboth : (j.first t k).Open Γ ∧ (j.second t k).Open Γ ∧
      SlotFits Γ.P ((j.first t k).entries ++ (j.second t k).entries) ∧
      entriesPages Γ.P (j.second t k).entries ≤
        entriesPages Γ.P t.entries + entriesPages Γ.P k.entries ∧
      fill Γ.P (j.first t k).entries + fill Γ.P (j.second t k).entries =
        fill Γ.P t.entries + fill Γ.P k.entries := by
    unfold Joint.first Joint.second
    split
    · refine ⟨⟨hpair.writable, hpair.sound.kids⟩, ht, ?_, Nat.le_add_right _ _, add_comm _ _⟩
      unfold SlotFits at hslots ⊢
      rw [List.length_append] at hslots ⊢
      omega
    · exact ⟨ht, ⟨hpair.writable, hpair.sound.kids⟩, hslots, Nat.le_add_left _ _, rfl⟩
  obtain ⟨hfirst, hsecond, hslots', hpages, hsum⟩ := hboth
  have h₀ :
      Own Γ (b + (entriesPages Γ.P (j.second t k).entries + recordPages Γ.P j.separator.key []))
        (c.rootId g.pgid)
      ((j.first t k).objs + (j.second t k).objs +
        (g.two j.separator (j.first t k).pgid (j.second t k).pgid ::ₘ
        (g.sideObjs + c.objs g.pgid + O))) s := by
    refine (h.room_mono _ (by omega)).perm ?_
    rw [hobjs]
    simp only [← Multiset.singleton_add]
    abel
  obtain ⟨hok, hfails⟩ := mergeBranch_trees hfirst.1 hadm (fun x hx => hfirst.2 x hx)
    (fun x hx => hsecond.2 x hx) h₀ hslots'
  have hiff : j.Merges Γ.P t.entries ↔
      fill Γ.P (j.first t k).entries + (8 + recordStub Γ.P j.separator.key []) +
      fill Γ.P (j.second t k).entries ≤ Γ.P - 18 := by
    unfold Joint.Merges
    rw [← hpair.sibling_eq]
    omega
  have hbegin : run s = (do
      BTree.mergeBranch Γ.env (j.first t k).pgid (j.second t k).pgid j.separator.key
      BTree.deleteBranch Γ.env c.stack g.pgid g.esL.length) s := Exec.bind_of_ok hkey
  rw [hiff]
  refine ⟨fun hmerges => ?_, fun hnot => ?_⟩
  · obtain ⟨_, s₁, hmerge, m, G, hpgid, hflat, hsound, hG, h₁⟩ := hok hmerges
    have hlen : (g.ksL.map Tree.pgid).length = g.esL.length := by rw [List.length_map, g.lenL]
    have h₁' : Own Γ b (c.rootId g.pgid) (g.two j.separator m.pgid (j.second t k).pgid ::ₘ
        (m.objs + (g.sideObjs + c.objs g.pgid + (G + O)))) s₁ := by
      refine h₁.perm ?_
      rw [hpgid]
      simp only [← Multiset.singleton_add]
      abel
    obtain ⟨s₂, hdelete, h₂, -⟩ := h₁'.branchDelete_right hpair.around.free hlen
    refine ⟨m, G, s₂, ?_, hsound, hG, ?_, h₂.perm ?_⟩
    · rw [hbegin, Exec.bind_of_ok hmerge, BTree.deleteBranch_eq, Exec.bind_of_ok hdelete]
    · rw [hpair.flat_eq, ← hflat, g.flat_fill]
      simp only [Ctx.before, Ctx.after, List.append_assoc]
    · rw [g.objs_fill]
      show g.obj m.pgid ::ₘ _ = _
      simp only [← Multiset.singleton_add]
      abel
  · obtain ⟨err, s', herror⟩ := hfails (Nat.lt_of_not_le hnot)
    exact ⟨err, s', by rw [hbegin, Exec.bind_of_error herror]⟩

end Pair

/-! ## All the way -/

/-- The balancing of a branch, when the sibling has been found and made writable. -/
def BTree.balanceWith (env : Env) (front : Nat × Nat) (rest : List (Nat × Nat))
    (node parentSlotId sibling : Nat) (leftSibling : Bool) : TxM Unit := do
  let rate ← Node.fillRate env sibling
  let count ← Node.countOf sibling
  let left := if leftSibling then sibling else node
  let right := if leftSibling then node else sibling
  if Node.rateGt rate 1 2 ∧ 2 ≤ count then do
    let newKey ← rotateBranch env front.1 parentSlotId node sibling count leftSibling
    replaceSeparator env (BranchNode.updateKey env front.1 parentSlotId newKey) front.1 parentSlotId
      rest left right newKey
  else do
    let downKey ← Node.getKey env front.1 parentSlotId
    mergeBranch env left right downKey
    deleteBranch env rest front.1 parentSlotId

/-- The way up from `t` goes as the keys say, and leaves the in-order sequence as it is. -/
def GoesUp (Γ : Scope) (b : ℕ) (O : Multiset Obj) (s : TxState) {d D : ℕ} (c : Ctx d D) (t : Tree d)
    (run : TxM Unit) (mends : Prop) : Prop :=
  (mends → Exec.Ok run s fun _ s' => HoldsFlat Γ b (c.before ++ t.flat ++ c.after) O s') ∧
    (¬ mends → ∀ s', run s = (.ok (), s') → Spoilt Γ s')

/-- One step up: the branch and its sibling, and what is above as far as it is known. -/
theorem balanceBranch_ok {d D : ℕ} {c : Ctx (d + 2) D} {f : Frame (d + 1)} {t : Tree (d + 1)}
    (hc : (Ctx.under f c).Sound Γ) (ht : t.Open Γ)
    (hshort : 5 * fill Γ.P t.entries < 2 * (Γ.P - 18)) (hdepth : D < kStackSize)
    (h : Own Γ (b + (entriesPages Γ.P t.entries + mendRoom Γ.P (Ctx.under f c).sides))
      ((Ctx.under f c).rootId t.pgid) (t.objs + ((Ctx.under f c).objs t.pgid + O)) s)
    (hup : ∀ (O : Multiset Obj) (s : TxState) (t' : Tree (d + 2)), t'.Open Γ →
      Own Γ (b + (entriesPages Γ.P t'.entries + mendRoom Γ.P c.sides)) (c.rootId t'.pgid)
        (t'.objs + (c.objs t'.pgid + O)) s →
      GoesUp Γ b O s c t' (BTree.balanceUp Γ.env c.stack t'.pgid) (Mends Γ.P c.sides t'.entries)) :
    ∃ j, f.level.joint = some j ∧ GoesUp Γ b O s (.under f c) t
      (BTree.balanceBranch Γ.env (f.pgid, f.esL.length) c.stack t.pgid)
      (if j.Lends Γ.P then j.Takes Γ.P c.levels j.branchKey
        else j.Merges Γ.P t.entries ∧ Mends Γ.P c.sides (j.left ++ j.right)) := by
  have hroom := Ctx.mendRoom_under Γ.P f c
  -- The sibling is found and copied first: everything below is about the pair.
  obtain ⟨j, g, k, s₁, hpair, h₁, hbegin⟩ := takeSibling_ok hc
    (h.room_mono (b + (entriesPages Γ.P t.entries + (mendRoom Γ.P (Ctx.under f c).sides - 1)) + 1)
      (by omega))
  rw [show (Ctx.under f c).rootId t.pgid = c.rootId g.pgid from hpair.pgid_eq ▸ rfl] at h₁
  obtain ⟨hkeys, hkid⟩ := Level.joint_pages Γ.P hpair.joint_eq
  rw [← hpair.sibling_eq] at hkid
  -- The room of the level pays for the two nodes of the pair, whichever way they are balanced.
  have hlevels : levelsRoom Γ.P (Ctx.under g c).levels =
      2 + 2 * entriesPages Γ.P (j.left ++ j.right) + levelsRoom Γ.P c.levels := by
    rw [← hpair.left_eq, ← hpair.right_eq]
    rfl
  have hkeys' : entriesPages Γ.P (j.left ++ j.right) ≤ entriesPages Γ.P (f.esL ++ f.esR) := hkeys
  have hm : Obj.node k.pgid k.view ∈ g.two j.separator (j.first t k).pgid (j.second t k).pgid ::ₘ
      (t.objs + k.objs + (g.sideObjs + c.objs g.pgid + O)) := by
    refine Multiset.mem_cons_of_mem (Multiset.mem_add.2 (.inl (Multiset.mem_add.2 (.inr ?_))))
    rw [k.objs_eq]
    exact Multiset.mem_cons_self _ _
  have hrate := h₁.fillRate hm
  have hcount := h₁.countOf hm
  rw [k.entries_eq, hpair.sibling_eq] at hrate hcount
  have htest : (Node.rateGt (fill Γ.P j.sibling, Γ.P - 18) 1 2 ∧ 2 ≤ j.sibling.length) ↔
      j.Lends Γ.P := by
    unfold Node.rateGt Joint.Lends
    rw [one_mul]
  have hrun : BTree.balanceBranch Γ.env (f.pgid, f.esL.length) c.stack t.pgid s =
      (if j.Lends Γ.P then do
        let newKey ← BTree.rotateBranch Γ.env g.pgid g.esL.length t.pgid k.pgid
          j.sibling.length j.isLeft
        BTree.replaceSeparator Γ.env (BranchNode.updateKey Γ.env g.pgid g.esL.length newKey) g.pgid
          g.esL.length c.stack (j.first t k).pgid (j.second t k).pgid newKey
      else do
        let downKey ← Node.getKey Γ.env g.pgid g.esL.length
        BTree.mergeBranch Γ.env (j.first t k).pgid (j.second t k).pgid downKey
        BTree.deleteBranch Γ.env c.stack g.pgid g.esL.length) s₁ := by
    refine (hbegin (BTree.balanceWith Γ.env (f.pgid, f.esL.length) c.stack t.pgid)).trans ?_
    unfold BTree.balanceWith
    rw [Exec.bind_of_ok hrate, Exec.bind_of_ok hcount]
    rw [j.pgid_first Tree.pgid t k, j.pgid_second Tree.pgid t k, hpair.pgid_eq]
    simp only [htest]
  refine ⟨j, hpair.joint_eq, ?_⟩
  -- A sibling that can spare a key ends the way up, up to a split for the new separator.
  by_cases hlends : j.Lends Γ.P
  · rw [if_pos hlends] at hrun ⊢
    obtain ⟨hok, hbad⟩ :=
      lendBranch_ok (b := b) hpair ht hlends hshort hdepth (h₁.room_mono _ (by omega))
    exact ⟨fun htakes => .of_run_eq hrun (hok htakes), fun hnot s' hs' =>
      hbad hnot s' (hrun.symm.trans hs')⟩
  · rw [if_neg hlends] at hrun ⊢
    obtain ⟨hok, hfails⟩ := mergeBranch_up
      (b := b + (entriesPages Γ.P (j.left ++ j.right) + mendRoom Γ.P c.sides)) hpair ht
      hlends hshort (O := O) (h₁.room_mono _ (by omega))
    -- A merge takes the separator away, and the way up goes on one level higher.
    by_cases hmerges : j.Merges Γ.P t.entries
    · obtain ⟨m, G, s₂, hgo, hsound, hG, hflat, h₂⟩ := hok hmerges
      have hentries : (g.fill m).entries = j.left ++ j.right := by
        rw [← hpair.left_eq, ← hpair.right_eq]
        rfl
      obtain ⟨hgood, hbad⟩ :=
        hup (G + O) s₂ (g.fill m) ⟨hpair.around.free, hpair.around.kids hsound⟩ (by
        rw [hentries]
        exact h₂)
      rw [hentries] at hgood hbad
      refine ⟨fun hmends => .of_run_eq (hrun.trans hgo) ?_, fun hnot s' hs' =>
        hbad (fun hmends => hnot ⟨hmerges, hmends⟩) s' ((hrun.trans hgo).symm.trans hs')⟩
      refine (hgood hmends.2).imp fun _ s' hs' => ?_
      rw [hflat] at hs'
      exact hs'.junk hG
    · obtain ⟨err, s', herror⟩ := hfails hmerges
      refine ⟨fun hmends => absurd hmends.1 hmerges, fun _ s'' hs'' => ?_⟩
      cases (hrun.trans herror).symm.trans hs''

/-- **The branches above a merge.** -/
theorem balanceUp_ok {d D : ℕ} (c : Ctx d D) {t : Tree d} (hc : c.Sound Γ) (ht : t.Open Γ)
    (hdepth : D < kStackSize)
    (h : Own Γ (b + (entriesPages Γ.P t.entries + mendRoom Γ.P c.sides)) (c.rootId t.pgid)
      (t.objs + (c.objs t.pgid + O)) s) :
    GoesUp Γ b O s c t (BTree.balanceUp Γ.env c.stack t.pgid) (Mends Γ.P c.sides t.entries) := by
  induction c generalizing b O s with
  | top =>
    refine ⟨fun _ => ?_, fun hnot => absurd trivial hnot⟩
    have hroot := balanceUp_root (O := O) ht
      ((h.room_mono b (Nat.le_add_right _ _)).perm (by rw [Ctx.objs, zero_add]))
    refine hroot.imp fun _ s' hs' => ?_
    simpa [Ctx.before, Ctx.after] using hs'
  | @under d D f c ih =>
    cases d with
    | zero => exact absurd ht id
    | succ d =>
      have hm : Obj.node t.pgid t.view ∈ t.objs + ((Ctx.under f c).objs t.pgid + O) := by
        rw [t.objs_eq, Multiset.cons_add]
        exact Multiset.mem_cons_self _ _
      have hrate : Node.fillRate Γ.env t.pgid s = (.ok (fill Γ.P t.entries, Γ.P - 18), s) := by
        have := h.fillRate hm
        rwa [t.entries_eq] at this
      have hrun : BTree.balanceUp Γ.env (Ctx.under f c).stack t.pgid s =
          (if 2 * (Γ.P - 18) ≤ 5 * fill Γ.P t.entries then pure ()
            else BTree.balanceBranch Γ.env (f.pgid, f.esL.length) c.stack t.pgid) s := by
        rw [Ctx.stack, BTree.balanceUp, Exec.bind_of_ok hrate]
        rfl
      by_cases hrich : 2 * (Γ.P - 18) ≤ 5 * fill Γ.P t.entries
      · -- the branch is full enough
        refine ⟨fun _ => Exec.Ok.intro () s (by rw [hrun, if_pos hrich]; rfl) ?_,
          fun hnot => absurd (.inl hrich) hnot⟩
        have hne : t.entries ≠ [] := by
          intro hnil
          have := Γ.hP.min
          rw [hnil, fill_nil] at hrich
          omega
        exact .plug hc (ht.sound hne) (h.room_mono b (Nat.le_add_right _ _))
      · obtain ⟨j, hj, hgood, hbad⟩ := balanceBranch_ok hc ht (Nat.lt_of_not_le hrich) hdepth h
          fun O s t' ht' h' => ih (hc.under) ht' hdepth h'
        have hiff : Mends Γ.P (Ctx.under f c).sides t.entries ↔
            if j.Lends Γ.P then j.Takes Γ.P c.levels j.branchKey
            else j.Merges Γ.P t.entries ∧ Mends Γ.P c.sides (j.left ++ j.right) := by
          rw [← c.keys_sides]
          show _ ∨ (∃ j' ∈ f.level.joint, _) ↔ _
          rw [or_iff_right hrich, hj]
          simp
        rw [if_neg hrich] at hrun
        rw [hiff]
        exact ⟨fun hmends => .of_run_eq hrun (hgood hmends), fun hnot s' hs' =>
          hbad hnot s' (hrun.symm.trans hs')⟩

end WayUp

end AtomKV
