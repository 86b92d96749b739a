import AtomKV.Deletion

/-!
# Deletion from a leaf

`BTree::Delete(Iterator*)` without its first assertion: the record goes, and a leaf that is left
less than two fifths full is balanced with its sibling. A record that moves takes a new separator
along, and a merge takes the separator and goes on in the branches.
-/

set_option autoImplicit false

namespace AtomKV

/-- A leaf with the records `es` below the levels can be balanced. -/
def LeafMends (P : Nat) : List Level → List Entry → Prop
  | [], _ => True
  | l :: above, es => 2 * (P - 18) ≤ 5 * fill P es ∨ ∃ j ∈ l.joint,
      if j.Lends P then j.Takes P (above.map Level.keys) j.leafKey
        else Mends P above (j.left ++ j.right)

instance (P : Nat) : ∀ (levels : List Level) (es : List Entry), Decidable (LeafMends P levels es)
  | [], _ => inferInstanceAs (Decidable True)
  | _ :: _, _ => inferInstanceAs (Decidable (_ ∨ _))

namespace BTree

/-- The balancing of a leaf, when the sibling has been found and made writable. -/
def balanceLeafWith (env : Env) (front : Nat × Nat) (rest : List (Nat × Nat))
    (node parentSlotId sibling : Nat) (leftSibling : Bool) : TxM Unit := do
  let rate ← Node.fillRate env sibling
  let count ← Node.countOf sibling
  let left := if leftSibling then sibling else node
  let right := if leftSibling then node else sibling
  if Node.rateGt rate 1 2 ∧ 2 ≤ count then do
    let newKey ← rotateLeaf env node sibling count leftSibling
    replaceSeparator env (updateSeparator env front.1 parentSlotId newKey) front.1 parentSlotId
      rest left right newKey
  else do
    mergeLeaf env left right
    deleteBranch env rest front.1 parentSlotId

/-- What is done with a leaf that is not full enough; the root may be so. -/
def balanceIn (env : Env) (stack : List (Nat × Nat)) (pgid : Nat) : TxM Unit :=
  match stack with
  | front :: rest => balanceLeaf env front rest pgid
  | [] => pure ()

theorem replaceSeparator_child {env : Env} {parent parentSlotId child left right : Nat}
    {rest : List (Nat × Nat)} {newKey : Bytes} {s : TxState}
    (h : BranchNode.getLeftChild parent parentSlotId s = (.ok child, s)) :
    replaceSeparator env (updateSeparator env parent parentSlotId newKey) parent parentSlotId rest
      left right newKey s = replaceSeparator env
        (BranchNode.update env parent parentSlotId newKey child false) parent parentSlotId rest left
        right newKey s := by
  unfold replaceSeparator updateSeparator
  rw [bind_assoc, Exec.bind_of_ok h]

end BTree

/-! ## The order of the sequence -/

section Order

variable {cmp : Bytes → Bytes → Ordering} {A B : List Item} {L R M : List Entry}
  {e : Entry} {x : Item}

/-- Without the separator between two leaves. -/
theorem pairwise_joined
    (h : (A ++ (recordItems L ++ x :: recordItems R) ++ B).Pairwise (Item.Below cmp)) :
    (A ++ recordItems (L ++ R) ++ B).Pairwise (Item.Below cmp) := by
  refine h.sublist (List.Sublist.append_right (List.Sublist.append_left ?_ A) B)
  rw [recordItems_append]
  exact List.Sublist.append_left (List.sublist_cons_self _ _) _

/-- With the key of a later record in the place of the separator. -/
theorem pairwise_separated [Std.TransCmp cmp] (hL : L ≠ [])
    (h : (A ++ recordItems (L ++ e :: R) ++ B).Pairwise (Item.Below cmp)) :
    (A ++ (recordItems L ++ .separator e.key :: recordItems (e :: R)) ++ B).Pairwise
      (Item.Below cmp) := by
  obtain ⟨L, a, rfl⟩ := (List.eq_nil_or_concat' L).resolve_left hL
  have hitems : A ++ recordItems ((L ++ [a]) ++ e :: R) ++ B =
      (A ++ recordItems L) ++ .record a.data :: .record e.data :: (recordItems R ++ B) := by simp
  rw [hitems] at h
  have hsep := pairwise_separator h
  simpa [Entry.data] using hsep

variable {K : Bytes → Prop}

theorem keys_joined (h : ∀ y ∈ A ++ (recordItems L ++ x :: recordItems R) ++ B, K y.key) :
    ∀ y ∈ A ++ recordItems (L ++ R) ++ B, K y.key := by
  intro y hy
  refine h y (List.Sublist.subset (List.Sublist.append_right (List.Sublist.append_left ?_ A) B) hy)
  rw [recordItems_append]
  exact List.Sublist.append_left (List.sublist_cons_self _ _) _

/-- The new separator is a key that was there. -/
theorem keys_separated (h : ∀ y ∈ A ++ recordItems (L ++ e :: R) ++ B, K y.key) :
    ∀ y ∈ A ++ (recordItems L ++ .separator e.key :: recordItems (e :: R)) ++ B, K y.key := by
  have he : K e.key := h (.record e.data) (by simp)
  simp only [recordItems_append, List.forall_mem_append, List.forall_mem_cons] at h ⊢
  obtain ⟨⟨hA, hL, hR⟩, hB⟩ := h
  exact ⟨⟨hA, hL, he, hR⟩, hB⟩

end Order

/-! ## The sequence afterwards -/

/-- Besides the objects `O` the state holds a well-formed tree with these records, whose separators
are among the keys `K`. -/
def HoldsContents (Γ : Scope) (b : ℕ) (contents : List (Bytes × Bytes × Bool)) (K : Bytes → Prop)
    (O : Multiset Obj) (s : TxState) : Prop :=
  ∃ (t : Shape) (G : Multiset Obj), JunkOnly G ∧ t.contents = contents ∧ (∀ x ∈ t.flat, K x.key) ∧
    WellFormed Γ b t (G + O) s

section LeafUp

variable {Γ : Scope} {b : ℕ} {K : Bytes → Prop} {O G : Multiset Obj} {s : TxState}

theorem HoldsFlat.contents {items : List Item} (h : HoldsFlat Γ b items O s)
    (hord : items.Pairwise (Item.Below Γ.env.comparator)) (hkeys : ∀ x ∈ items, K x.key) :
    HoldsContents Γ b (records items) K O s := by
  obtain ⟨D, t, G, hG, hown, rfl, hfull, hsafe⟩ := h
  exact ⟨.tree t, G, hG, rfl, hkeys, hown, hord, hfull, hsafe⟩

theorem HoldsContents.junk {contents : List (Bytes × Bytes × Bool)} (hG : JunkOnly G)
    (h : HoldsContents Γ b contents K (G + O) s) : HoldsContents Γ b contents K O s := by
  obtain ⟨t, G', hG', hcontents, hkeys, hwf⟩ := h
  refine ⟨t, G' + G, fun o ho => ?_, hcontents, hkeys, by rwa [add_assoc]⟩
  rcases Multiset.mem_add.1 ho with ho | ho
  · exact hG' o ho
  · exact hG o ho

/-- The run removes nothing but what has gone already, when `mends` holds; otherwise no tree
remains. -/
def Settles (Γ : Scope) (b : ℕ) (contents : List (Bytes × Bytes × Bool)) (K : Bytes → Prop)
    (O : Multiset Obj) (s : TxState) (run : TxM Unit) (mends : Prop) : Prop :=
  (mends → Exec.Ok run s fun _ s' => HoldsContents Γ b contents K O s') ∧
    (¬ mends → ∀ s', run s = (.ok (), s') → Spoilt Γ s')

theorem Settles.of_run_eq {contents : List (Bytes × Bytes × Bool)} {s s' : TxState}
    {run run' : TxM Unit} {mends : Prop} (hrun : run s = run' s')
    (h : Settles Γ b contents K O s' run' mends) : Settles Γ b contents K O s run mends :=
  ⟨fun hmends => .of_run_eq hrun (h.1 hmends), fun hnot s'' hs'' =>
    h.2 hnot s'' (hrun.symm.trans hs'')⟩

/-! ## A leaf and its sibling -/

section Pair

variable {D : ℕ} {c : Ctx 1 D} {f g : Frame 0} {j : Joint} {p tp q tk : Nat} {es : List Entry}

/-- The sequence around two leaves, with the separator between them. -/
theorem Paired.items_eq (hpair : Paired Γ c f (.leaf p tp es) j g (.leaf q tk j.sibling)) :
    (Ctx.under f c).before ++ recordItems es ++ (Ctx.under f c).after = (Ctx.under g c).before ++
      (recordItems (j.first es j.sibling) ++ .separator j.separator.key ::
        recordItems (j.second es j.sibling)) ++ (Ctx.under g c).after := by
  have hflat := hpair.flat_eq
  have hfirst : (j.first (Tree.leaf p tp es) (Tree.leaf q tk j.sibling)).flat =
      recordItems (j.first es j.sibling) := by
    unfold Joint.first
    split <;> rfl
  have hsecond : (j.second (Tree.leaf p tp es) (Tree.leaf q tk j.sibling)).flat =
      recordItems (j.second es j.sibling) := by
    unfold Joint.second
    split <;> rfl
  rw [hfirst, hsecond] at hflat
  exact hflat

/-- The leaf takes a record from its sibling. -/
theorem lendLeaf_ok (hpair : Paired Γ c f (.leaf p tp es) j g (.leaf q tk j.sibling))
    (hp : ¬ Γ.keep p) (hlends : j.Lends Γ.P) (hshort : 5 * fill Γ.P es < 2 * (Γ.P - 18))
    (hdepth : D < kStackSize)
    (hord : ((Ctx.under f c).before ++ recordItems es ++ (Ctx.under f c).after).Pairwise
      (Item.Below Γ.env.comparator))
    (hkeys : ∀ x ∈ (Ctx.under f c).before ++ recordItems es ++ (Ctx.under f c).after, K x.key)
    (h : Own Γ (b + levelsRoom Γ.P (Ctx.under g c).levels + entriesPages Γ.P j.sibling)
      (c.rootId g.pgid) (.node p (.leaf tp es) ::ₘ .node q (.leaf tk j.sibling) ::ₘ
        g.two j.separator (j.first p q) (j.second p q) ::ₘ (g.sideObjs + c.objs g.pgid + O)) s) :
    Settles Γ b (records ((Ctx.under f c).before ++ recordItems es ++ (Ctx.under f c).after)) K O s
      (do
        let newKey ← BTree.rotateLeaf Γ.env p q j.sibling.length j.isLeft
        BTree.replaceSeparator Γ.env (BTree.updateSeparator Γ.env g.pgid g.esL.length newKey) g.pgid
          g.esL.length c.stack (j.first p q) (j.second p q) newKey)
      (j.Takes Γ.P c.levels j.leafKey) := by
  have := Γ.ok.trans
  have hq : ¬ Γ.keep q := hpair.writable
  obtain ⟨newKey, s₁, hrotate, L, e, R, tl, tr, G, rfl, hkey, hL, hrows, hG, h₁⟩ :=
    rotateLeaf_rows hp hq hshort hlends h
  have hsame : SameData (L ++ e :: R) (j.first es j.sibling ++ j.second es j.sibling) := hrows
  have hfirst : ¬ Γ.keep (j.first p q) ∧ ¬ Γ.keep (j.second p q) := by
    unfold Joint.first Joint.second
    split
    · exact ⟨hq, hp⟩
    · exact ⟨hp, hq⟩
  have hadm : Admissible Γ.P j.leafKey [] := by
    rw [← hkey]
    exact h₁.key_admissible (Multiset.mem_cons_of_mem (Multiset.mem_cons_self _ _))
      List.mem_cons_self
  have hchild : BranchNode.getLeftChild g.pgid g.esL.length s₁ = (.ok (j.first p q), s₁) := by
    have hlen : (g.ksL.map Tree.pgid).length = g.esL.length := by rw [List.length_map, g.lenL]
    have hm : g.two j.separator (j.first p q) (j.second p q) ∈ .node (j.first p q) (.leaf tl L) ::ₘ
        .node (j.second p q) (.leaf tr (e :: R)) ::ₘ
          (G + (g.two j.separator (j.first p q) (j.second p q) ::ₘ
          (g.sideObjs + c.objs g.pgid + O))) := by simp
    refine h₁.getLeftChild hm ?_
    rw [← hlen]
    simp
  -- the new separator is the key of the right leaf
  have hord' := hord
  rw [hpair.items_eq] at hord' hkeys
  have hjoined := pairwise_joined hord'
  have hkeys' := keys_joined hkeys
  rw [← hsame.recordItems_eq] at hjoined hkeys'
  have hseparated := pairwise_separated hL hjoined
  have hrecords : records
      ((Ctx.under g c).before ++ (recordItems L ++ .separator e.key :: recordItems (e :: R)) ++
      (Ctx.under g c).after) =
        records ((Ctx.under f c).before ++ recordItems es ++ (Ctx.under f c).after) := by
    have hmid := congrArg records hsame.recordItems_eq
    rw [hpair.items_eq]
    simp only [records_append, recordItems_append, records_cons_separator] at hmid ⊢
    rw [hmid]
  have hl : (Tree.leaf (j.first p q) tl L).Sound Γ :=
    ⟨(Tree.full_leaf ..).2 hL, fun hk => absurd hk hfirst.1⟩
  have hr : (Tree.leaf (j.second p q) tr (e :: R)).Sound Γ :=
    ⟨(Tree.full_leaf ..).2 (List.cons_ne_nil e R), fun hk => absurd hk hfirst.2⟩
  obtain ⟨hok, hbad⟩ := replaceSeparator_ok (b := b) (O := G + O) (.inr rfl) hpair.left_eq
    hpair.right_eq hpair.around hl hr hdepth hadm (h₁.perm (by
      simp only [Tree.objs_leaf, Tree.pgid_leaf, ← Multiset.singleton_add]
      abel))
  refine .of_run_eq ((Exec.bind_of_ok hrotate).trans (BTree.replaceSeparator_child hchild))
    ⟨fun htakes => (hok htakes).imp fun _ s' hs' => ?_, hbad⟩
  rw [← hrecords]
  rw [← hkey] at hs'
  exact (hs'.contents hseparated (keys_separated hkeys')).junk hG

/-- The leaf and its sibling become one, and their parent loses the separator. -/
theorem mergeLeaf_up {a : ℕ} (hpair : Paired Γ c f (.leaf p tp es) j g (.leaf q tk j.sibling))
    (hp : ¬ Γ.keep p) (hlends : ¬ j.Lends Γ.P) (hshort : 5 * fill Γ.P es < 2 * (Γ.P - 18))
    (h : Own Γ (a + (entriesPages Γ.P es + entriesPages Γ.P j.sibling)) (c.rootId g.pgid)
      (.node p (.leaf tp es) ::ₘ .node q (.leaf tk j.sibling) ::ₘ
        g.two j.separator (j.first p q) (j.second p q) ::ₘ (g.sideObjs + c.objs g.pgid + O)) s) :
    ∃ (m : Tree 0) (G : Multiset Obj) (s' : TxState), (do
        BTree.mergeLeaf Γ.env (j.first p q) (j.second p q)
        BTree.deleteBranch Γ.env c.stack g.pgid g.esL.length : TxM Unit) s =
          BTree.balanceUp Γ.env c.stack g.pgid s' ∧
      m.flat = recordItems (j.first es j.sibling ++ j.second es j.sibling) ∧
      m.Sound Γ ∧ JunkOnly G ∧
      Own Γ a (c.rootId g.pgid) ((g.fill m).objs + (c.objs g.pgid + (G + O))) s' := by
  have hq : ¬ Γ.keep q := hpair.writable
  have hlen : (g.ksL.map Tree.pgid).length = g.esL.length := by rw [List.length_map, g.lenL]
  obtain ⟨_, s₁, hmerge, tl, M, G, hM, hG, h₁⟩ := mergeLeaf_pair hp hq hshort hlends h
  have h₂ : Own Γ a (c.rootId g.pgid) (g.two j.separator (j.first p q) (j.second p q) ::ₘ
      (.node (j.first p q) (.leaf tl M) ::ₘ (g.sideObjs + c.objs g.pgid + (G + O)))) s₁ :=
        h₁.perm (by
    simp only [← Multiset.singleton_add]
    abel)
  obtain ⟨s₂, hdelete, h₃, -⟩ := h₂.branchDelete_right hpair.around.free hlen
  have hsibling : j.sibling ≠ [] := (Tree.full_leaf ..).1 hpair.sound.full
  -- The sibling has a record, whichever side it is on, so the merged leaf has one.
  have hne : M ≠ [] := by
    rintro rfl
    have hnil : j.first es j.sibling ++ j.second es j.sibling = [] := List.map_eq_nil_iff.1 hM.symm
    unfold Joint.first Joint.second at hnil
    obtain ⟨hfirst, hsecond⟩ := List.append_eq_nil_iff.1 hnil
    split at hfirst
    · exact hsibling hfirst
    · rename_i hside
      rw [if_neg hside] at hsecond
      exact hsibling hsecond
  have hkeep : ¬ Γ.keep (j.first p q) := by
    unfold Joint.first
    split
    · exact hq
    · exact hp
  refine ⟨.leaf (j.first p q) tl M, G, s₂, ?_, ?_,
    ⟨(Tree.full_leaf ..).2 hne, fun hk => absurd hk hkeep⟩, hG, h₃.perm ?_⟩
  · rw [Exec.bind_of_ok hmerge, BTree.deleteBranch_eq, Exec.bind_of_ok hdelete]
  · rw [Tree.flat_leaf, hM.recordItems_eq]
  · rw [g.objs_fill, Tree.objs_leaf]
    show g.obj (j.first p q) ::ₘ _ = g.obj (j.first p q) ::ₘ _ + _
    simp only [← Multiset.singleton_add]
    abel

/-- **The balancing of a leaf** on its path. -/
theorem balanceLeaf_ok (hc : (Ctx.under f c).Sound Γ) (hp : ¬ Γ.keep p)
    (hshort : 5 * fill Γ.P es < 2 * (Γ.P - 18)) (hdepth : D < kStackSize)
    (hord : ((Ctx.under f c).before ++ recordItems es ++ (Ctx.under f c).after).Pairwise
      (Item.Below Γ.env.comparator))
    (hkeys : ∀ x ∈ (Ctx.under f c).before ++ recordItems es ++ (Ctx.under f c).after, K x.key)
    (h : Own Γ (b + (entriesPages Γ.P es + mendRoom Γ.P (Ctx.under f c).sides))
      ((Ctx.under f c).rootId p) (.node p (.leaf tp es) ::ₘ ((Ctx.under f c).objs p + O)) s) :
    Settles Γ b (records ((Ctx.under f c).before ++ recordItems es ++ (Ctx.under f c).after)) K O s
      (BTree.balanceLeaf Γ.env (f.pgid, f.esL.length) c.stack p)
        (LeafMends Γ.P (Ctx.under f c).sides es) := by
  have hroom := Ctx.mendRoom_under Γ.P f c
  obtain ⟨j, g, k, s₁, hpair, h₁, hbegin⟩ := takeSibling_ok (t := .leaf p tp es) hc
    ((h.room_mono (b + (entriesPages Γ.P es + (mendRoom Γ.P (Ctx.under f c).sides - 1)) + 1)
      (by omega)).perm (by
      rw [Tree.objs_leaf, Multiset.singleton_add]
      rfl))
  obtain ⟨q, tk, sibling, rfl⟩ := k.exists_leaf
  obtain rfl : sibling = j.sibling := hpair.sibling_eq
  rw [show (Ctx.under f c).rootId p = c.rootId g.pgid from hpair.pgid_eq ▸ rfl] at h₁
  have hfirst : (j.first (Tree.leaf p tp es) (Tree.leaf q tk j.sibling)).pgid = j.first p q :=
    (j.pgid_first Tree.pgid _ _).symm
  have hsecond : (j.second (Tree.leaf p tp es) (Tree.leaf q tk j.sibling)).pgid = j.second p q :=
    (j.pgid_second Tree.pgid _ _).symm
  have h₂ : Own Γ (b + (entriesPages Γ.P es + (mendRoom Γ.P (Ctx.under f c).sides - 1)))
      (c.rootId g.pgid) (.node p (.leaf tp es) ::ₘ .node q (.leaf tk j.sibling) ::ₘ
        g.two j.separator (j.first p q) (j.second p q) ::ₘ
        (g.sideObjs + c.objs g.pgid + O)) s₁ := by
    rw [hfirst, hsecond] at h₁
    refine h₁.perm ?_
    simp only [Tree.objs_leaf, ← Multiset.singleton_add]
    abel
  obtain ⟨hpages, hkid⟩ := Level.joint_pages Γ.P hpair.joint_eq
  have hlevels : levelsRoom Γ.P (Ctx.under g c).levels =
      2 + 2 * entriesPages Γ.P (j.left ++ j.right) + levelsRoom Γ.P c.levels := by
    rw [← hpair.left_eq, ← hpair.right_eq]
    rfl
  have hpages' : entriesPages Γ.P (j.left ++ j.right) ≤ entriesPages Γ.P (f.esL ++ f.esR) := hpages
  have hm : Obj.node q (.leaf tk j.sibling) ∈
      .node p (.leaf tp es) ::ₘ .node q (.leaf tk j.sibling) ::ₘ
      g.two j.separator (j.first p q) (j.second p q) ::ₘ (g.sideObjs + c.objs g.pgid + O) :=
    Multiset.mem_cons_of_mem (Multiset.mem_cons_self _ _)
  have htest : (Node.rateGt (fill Γ.P j.sibling, Γ.P - 18) 1 2 ∧ 2 ≤ j.sibling.length) ↔
      j.Lends Γ.P := by
    unfold Node.rateGt Joint.Lends
    rw [one_mul]
  have hrun : BTree.balanceLeaf Γ.env (f.pgid, f.esL.length) c.stack p s = (if j.Lends Γ.P then do
        let newKey ← BTree.rotateLeaf Γ.env p q j.sibling.length j.isLeft
        BTree.replaceSeparator Γ.env (BTree.updateSeparator Γ.env g.pgid g.esL.length newKey) g.pgid
          g.esL.length c.stack (j.first p q) (j.second p q) newKey
      else do
        BTree.mergeLeaf Γ.env (j.first p q) (j.second p q)
        BTree.deleteBranch Γ.env c.stack g.pgid g.esL.length) s₁ := by
    refine (hbegin (BTree.balanceLeafWith Γ.env (f.pgid, f.esL.length) c.stack p)).trans ?_
    show BTree.balanceLeafWith Γ.env (f.pgid, f.esL.length) c.stack p g.esL.length q j.isLeft s₁ = _
    unfold BTree.balanceLeafWith
    rw [Exec.bind_of_ok (h₂.fillRate hm), Exec.bind_of_ok (h₂.countOf hm), hpair.pgid_eq]
    simp only [htest]
    rfl
  have hiff : LeafMends Γ.P (Ctx.under f c).sides es ↔
      if j.Lends Γ.P then j.Takes Γ.P c.levels j.leafKey
      else Mends Γ.P c.sides (j.left ++ j.right) := by
    rw [← c.keys_sides]
    show _ ∨ (∃ j' ∈ f.level.joint, _) ↔ _
    rw [or_iff_right (Nat.not_le.2 hshort), hpair.joint_eq]
    simp
  rw [hiff]
  by_cases hlends : j.Lends Γ.P
  · rw [if_pos hlends] at hrun ⊢
    exact .of_run_eq hrun
      (lendLeaf_ok hpair hp hlends hshort hdepth hord hkeys (h₂.room_mono _ (by omega)))
  · rw [if_neg hlends] at hrun ⊢
    obtain ⟨m, G, s₂, hgo, hflat, hsound, hG, h₃⟩ :=
      mergeLeaf_up (a := b + (entriesPages Γ.P (j.left ++ j.right) + mendRoom Γ.P c.sides)) (O := O)
        hpair hp hlends hshort (h₂.room_mono _ (by omega))
    have hentries : (g.fill m).entries = j.left ++ j.right := by
      rw [← hpair.left_eq, ← hpair.right_eq]
      rfl
    obtain ⟨hok, hbad⟩ := balanceUp_ok (b := b) (O := G + O) c (t := g.fill m) hc.under
      ⟨hpair.around.free, hpair.around.kids hsound⟩ hdepth (by
        rw [hentries]
        exact h₃)
    rw [hentries] at hok hbad
    -- the separator between the two leaves is gone
    rw [hpair.items_eq] at hord hkeys ⊢
    have hitems : c.before ++ (g.fill m).flat ++ c.after = (Ctx.under g c).before ++
        recordItems (j.first es j.sibling ++ j.second es j.sibling) ++ (Ctx.under g c).after := by
      rw [g.flat_fill, hflat]
      simp only [Ctx.before, Ctx.after, List.append_assoc]
    have hrecords : records ((Ctx.under g c).before ++ (recordItems (j.first es j.sibling) ++
        .separator j.separator.key :: recordItems (j.second es j.sibling)) ++
          (Ctx.under g c).after) = records (c.before ++ (g.fill m).flat ++ c.after) := by
      rw [hitems]
      simp only [records_append, recordItems_append, records_cons_separator]
    have hjoined := pairwise_joined hord
    have hkeys' := keys_joined hkeys
    rw [← hitems] at hjoined hkeys'
    rw [hrecords]
    exact .of_run_eq (hrun.trans hgo)
      ⟨fun hmends => (hok hmends).imp fun _ s' hs' => (hs'.contents hjoined hkeys').junk hG, hbad⟩

end Pair

end LeafUp

end AtomKV
