import AtomKV.InsertionLaw
import AtomKV.LeafDeletion

/-!
# The deletion law

When `BTree::Delete` keeps a well-formed tree well-formed and takes the record of the key out of it.
From the keys and records on the path and next to it, `Shape.DeletesCleanly` says whether it does.
Otherwise the call does not return, or no well-formed tree remains.
-/

set_option autoImplicit false

namespace AtomKV

/-- The entry of a sub-bucket with a root page. -/
def Entry.Live (e : Entry) : Prop := e.isBucket = true ∧ e.value ≠ [0xff, 0xff, 0xff, 0xff]

instance (e : Entry) : Decidable e.Live := inferInstanceAs (Decidable (_ ∧ _))

namespace Shape

/-- The record of the key is not the entry of a live sub-bucket, and the leaf without it can
be balanced. -/
def DeletesCleanly (P : Nat) (cmp : Bytes → Bytes → Ordering) (key : Bytes) : Shape → Prop
  | empty => True
  | tree t =>
      let r := t.route cmp key []
      ∀ e ∈ r.right.head?, e.key = key →
        ¬ e.Live ∧ LeafMends P (t.sides cmp key []) (r.left ++ r.right.tail)

instance (P : Nat) (cmp : Bytes → Bytes → Ordering) (key : Bytes) :
    (t : Shape) → Decidable (t.DeletesCleanly P cmp key)
  | .empty => inferInstanceAs (Decidable True)
  | .tree t =>
      match h : (t.route cmp key []).right.head? with
      | none => .isTrue fun e he => by
          rw [h] at he
          cases he
      | some e => decidable_of_iff (e.key = key →
          ¬ e.Live ∧ LeafMends P (t.sides cmp key [])
            ((t.route cmp key []).left ++ (t.route cmp key []).right.tail))
          ⟨fun hc e' he' => by
            obtain rfl := Option.some.inj (h.symm.trans he')
            exact hc, fun hc => hc e h⟩

/-- Pages that the deletion can take. -/
def deleteRoom (P : Nat) (cmp : Bytes → Bytes → Ordering) (key : Bytes) : Shape → ℕ
  | .empty => 0
  | @Shape.tree D t =>
      let r := t.route cmp key []
      entriesPages P (r.left ++ r.right) + mendRoom P (t.sides cmp key []) + (D + 1)

end Shape

section Law

variable {Γ : Scope} {b : ℕ} {K : Bytes → Prop} {O : Multiset Obj} {s : TxState} {key : Bytes}

/-! ## The first assertion -/

/-- **The entry of a live sub-bucket is not deleted.** -/
theorem Own.checkNotLiveBucket {r pgid txid slotId : Nat} {es : List Entry} {e : Entry}
    (h : Own Γ.toPageScope b r O s) (hm : Obj.node pgid (.leaf txid es) ∈ O)
    (he : es[slotId]? = some e) (rest : List (Nat × Nat)) :
    (¬ e.Live → BTree.checkNotLiveBucket Γ.env ⟨(pgid, slotId) :: rest, .kEq⟩ s = (.ok (), s)) ∧
      (e.Live → Exec.Fails (BTree.checkNotLiveBucket Γ.env ⟨(pgid, slotId) :: rest, .kEq⟩) s) := by
  have hleaf : BTreeIterator.getLeafNode ⟨(pgid, slotId) :: rest, .kEq⟩ s =
    (.ok (pgid, slotId), s) := rfl
  have hvalue : BTreeIterator.value Γ.env ⟨(pgid, slotId) :: rest, .kEq⟩ s = (.ok e.value, s) := by
    unfold BTreeIterator.value
    rw [Exec.bind_of_ok hleaf]
    exact h.getValue hm he
  have hbucket : BTreeIterator.isBucket ⟨(pgid, slotId) :: rest, .kEq⟩ s = (.ok e.isBucket, s) := by
    unfold BTreeIterator.isBucket
    rw [Exec.bind_of_ok hleaf]
    exact h.isBucket hm he
  unfold BTree.checkNotLiveBucket assert
  rw [Exec.bind_of_ok hbucket]
  constructor
  -- a record that is no entry, or the entry of a deleted bucket with the invalid page id
  · intro hlive
    by_cases hb : e.isBucket = true
    · have hfree : e.value = [0xff, 0xff, 0xff, 0xff] := not_not.1 fun hne => hlive ⟨hb, hne⟩
      rw [if_pos hb, Exec.bind_of_ok hvalue, hfree]
      rfl
    · rw [if_neg hb]
      rfl
  -- a live entry fails the first assertion or the second
  · rintro ⟨hb, hne⟩
    unfold Exec.Fails
    rw [Exec.bind_of_ok hbucket, if_pos hb, Exec.bind_of_ok hvalue]
    by_cases hsize : e.value.length ≠ 4
    · rw [if_pos hsize]
      exact ⟨_, s, rfl⟩
    · rw [if_neg hsize]
      show ∃ err s', Exec.require (e.value = [0xff, 0xff, 0xff, 0xff]) Err.assertion s =
        (.error err, s')
      unfold Exec.require
      rw [if_neg hne]
      exact ⟨_, s, rfl⟩

/-! ## The record goes -/

/-- The records but the one of the key. -/
def without (key : Bytes) (l : List (Bytes × Bytes × Bool)) : List (Bytes × Bytes × Bool) :=
  l.filter fun d => d.1 ≠ key

theorem without_eq_self {l : List (Bytes × Bytes × Bool)} (h : ∀ d ∈ l, d.1 ≠ key) :
    without key l = l :=
  List.filter_eq_self.2 fun d hd => decide_eq_true (h d hd)

/-- At the place of a key its record is the only one with the key. -/
theorem Place.At.without_eq {D : ℕ} {p : Place D} {t : Tree D} (h : p.At Γ.env.comparator key t) :
    without key (records t.flat) =
      records (p.ctx.before ++ recordItems p.left) ++
        records (recordItems p.right ++ p.ctx.after) := by
  have := Γ.ok.trans
  have hlow : ∀ d ∈ records (p.ctx.before ++ recordItems p.left), d.1 ≠ key := by
    rintro d hd rfl
    exact Compare.irrefl _ (h.ne_of_low hd)
  have hhigh : ∀ d ∈ records (recordItems p.right ++ p.ctx.after), d.1 ≠ key := by
    rintro d hd rfl
    exact Compare.irrefl _ (h.ne_of_high hd)
  have hhit : without key (p.hit.toList.map Entry.data) = [] := by
    refine List.filter_eq_nil_iff.2 fun d hd => ?_
    obtain ⟨e, he, rfl⟩ := List.mem_map.1 hd
    simp [Entry.data, h.hit_key e (Option.mem_toList.1 he)]
  rw [h.contents_eq]
  unfold without at hhit ⊢
  rw [List.filter_append, List.filter_append, hhit, List.nil_append]
  exact congrArg₂ _ (without_eq_self hlow) (without_eq_self hhigh)

/-- What is left of the sequence. -/
theorem Place.At.sublist_without {D : ℕ} {p : Place D} {t : Tree D}
    (h : p.At Γ.env.comparator key t) :
    (p.ctx.before ++ recordItems (p.left ++ p.right) ++ p.ctx.after).Sublist t.flat := by
  rw [← h.tree_eq, p.flat_tree, recordItems_append]
  simp only [List.append_assoc]
  refine List.Sublist.append_left (List.Sublist.append_left ?_ _) _
  exact List.sublist_append_right _ _

/-- The first record that is not below the key is its record, if the key is its own. -/
theorem Place.At.hit_of_head {D : ℕ} {p : Place D} {t : Tree D} (h : p.At Γ.env.comparator key t)
    {e : Entry} (he : e ∈ (t.route Γ.env.comparator key []).right.head?) (hkey : e.key = key) :
      p.hit = some e := by
  have := Γ.ok.trans
  rw [h.route_eq] at he
  cases hhit : p.hit with
  | some e' =>
    rw [hhit] at he
    exact he
  | none =>
    rw [hhit] at he
    have hmem : e ∈ p.right := List.mem_of_mem_head? he
    have hhigh : Γ.env.comparator key e.key = .lt :=
      h.high (.record e.data) (List.mem_append_left _ (List.mem_map_of_mem hmem))
    rw [hkey] at hhigh
    exact absurd hhigh (Compare.irrefl key)

/-- The deletion behind the first assertion, on a path that may be written. -/
theorem deleteAt_leaf {D : ℕ} {c : Ctx 0 D} {pgid txid : Nat} {left right : List Entry} {e : Entry}
    (hc : c.Sound Γ) (hkeep : ¬ Γ.keep pgid) (hdepth : D < kStackSize)
    (hord : (c.before ++ recordItems (left ++ right) ++ c.after).Pairwise
      (Item.Below Γ.env.comparator))
    (hkeys : ∀ x ∈ c.before ++ recordItems (left ++ right) ++ c.after, K x.key)
    (h : Own Γ (b + (entriesPages Γ.P (left ++ right) + mendRoom Γ.P c.sides)) (c.rootId pgid)
      (.node pgid (.leaf txid (left ++ e :: right)) ::ₘ (c.objs pgid + O)) s) :
    Settles Γ b (records (c.before ++ recordItems (left ++ right) ++ c.after)) K O s
      (BTree.deleteAt Γ.env ⟨(pgid, left.length) :: c.stack, .kEq⟩)
      (¬ e.Live ∧ LeafMends Γ.P c.sides (left ++ right)) := by
  obtain ⟨hfree, hlive⟩ := h.checkNotLiveBucket (Multiset.mem_cons_self _ _)
    (show (left ++ e :: right)[left.length]? = some e by simp) c.stack
  rw [Settles]
  by_cases he : e.Live
  · obtain ⟨err, s', herror⟩ := hlive he
    refine ⟨fun hmends => absurd he hmends.1, fun _ s'' hs'' => ?_⟩
    rw [BTree.deleteAt_eq, Exec.bind_of_error herror] at hs''
    cases hs''
  · obtain ⟨s₁, G, hdelete, hG, -, h₁, -⟩ := h.leafDelete hkeep
    have hrate := h₁.fillRate (Multiset.mem_cons_self _ _)
    have hrun : BTree.deleteAt Γ.env ⟨(pgid, left.length) :: c.stack, .kEq⟩ s =
        (if 2 * (Γ.P - 18) ≤ 5 * fill Γ.P (left ++ right) then pure ()
          else BTree.balanceIn Γ.env c.stack pgid : TxM Unit) s₁ := by
      rw [BTree.deleteAt_eq, Exec.bind_of_ok (hfree he)]
      show (LeafNode.delete Γ.env pgid left.length >>= _) s = _
      rw [Exec.bind_of_ok hdelete, Exec.bind_of_ok hrate]
      cases c.stack <;> rfl
    have hplug : ∀ hne : left ++ right ≠ [] ∨ c.stack = [],
        HoldsContents Γ b (records (c.before ++ recordItems (left ++ right) ++ c.after))
          K O s₁ := by
      intro hne
      have hflat : (c.plug (.leaf pgid txid (left ++ right))).flat =
          c.before ++ recordItems (left ++ right) ++ c.after := by
        rw [Ctx.flat_plug, Tree.flat_leaf, List.append_assoc]
      refine ⟨.tree (c.plug (.leaf pgid txid (left ++ right))), G, hG, congrArg records hflat,
        ?_, ?_, ?_, ?_, ?_⟩
      · show ∀ x ∈ (c.plug _).flat, _
        rw [hflat]
        exact hkeys
      · show Own Γ b (c.plug _).pgid ((c.plug _).objs + (G + O)) s₁
        rw [Ctx.pgid_plug, Ctx.objs_plug, Tree.objs_leaf]
        refine (h₁.room_mono b (Nat.le_add_right _ _)).perm ?_
        simp only [Tree.pgid_leaf, ← Multiset.singleton_add]
        abel
      · show (c.plug _).flat.Pairwise _
        rw [hflat]
        exact hord
      · rcases hne with hne | hroot
        · exact ((c.full_plug _).2 ⟨hc.full, (Tree.full_leaf ..).2 hne⟩).rootFull
        · cases c with
          | top => trivial
          | under f c => cases hroot
      · exact c.safe_plug _ hc.free hc.sides fun hk => absurd hk hkeep
    by_cases hrich : 2 * (Γ.P - 18) ≤ 5 * fill Γ.P (left ++ right)
    · -- the leaf is full enough
      have hne : left ++ right ≠ [] := by
        intro hnil
        have := Γ.hP.min
        rw [hnil, fill_nil] at hrich
        omega
      have hmends : LeafMends Γ.P c.sides (left ++ right) := by
        cases c with
        | top => trivial
        | under f c => exact .inl hrich
      refine ⟨fun _ => Exec.Ok.intro () s₁ ?_ (hplug (.inl hne)),
        fun hnot => absurd ⟨he, hmends⟩ hnot⟩
      rw [hrun, if_pos hrich]
      rfl
    · rw [if_neg hrich] at hrun
      cases c with
      | top =>
        exact ⟨fun _ => Exec.Ok.intro () s₁ hrun (hplug (.inr rfl)),
          fun hnot => absurd ⟨he, trivial⟩ hnot⟩
      | under f c =>
        obtain ⟨hok, hbad⟩ :=
          balanceLeaf_ok (O := G + O) hc hkeep (Nat.lt_of_not_le hrich) hdepth hord hkeys
          (h₁.perm (by
          simp only [← Multiset.singleton_add]
          abel))
        refine ⟨fun hmends => .of_run_eq hrun ((hok hmends.2).imp fun _ _ hs' => hs'.junk hG),
          fun hnot s' hs' => ?_⟩
        exact hbad (fun hmends => hnot ⟨he, hmends⟩) s' (hrun.symm.trans hs')

/-- The deletion of a key that is there. -/
theorem WellFormed.delete_found {D : ℕ} {t : Tree D} {p : Place D} {e : Entry}
    (h : WellFormed Γ (b + (Shape.tree t).deleteRoom Γ.P Γ.env.comparator key) (.tree t) O s)
    (hp : p.At Γ.env.comparator key t) (hhit : p.hit = some e)
    (hlower : BTree.lowerBound Γ.env key s = (.ok ⟨p.stack, .kEq⟩, s)) :
    ((Shape.tree t).DeletesCleanly Γ.P Γ.env.comparator key →
      ∃ s', BTree.delete Γ.env key s = (.ok true, s') ∧
      HoldsContents Γ b (without key (Shape.tree t).contents) (Shape.tree t).HasKey O s') ∧
    (¬ (Shape.tree t).DeletesCleanly Γ.P Γ.env.comparator key → ∀ r s',
      BTree.delete Γ.env key s = (.ok r, s') → Spoilt Γ s') := by
  have := Γ.ok.trans
  -- The route that the condition speaks about is the one of the place that `LowerBound` found.
  have hroute : t.route Γ.env.comparator key [] = ⟨p.ctx.levels, p.left, e :: p.right⟩ := by
    rw [hp.route_eq, hhit]
    rfl
  have hentries : p.entries = p.left ++ e :: p.right := by
    unfold Place.entries
    rw [hhit]
    rfl
  have hkey : e.key = key := hp.hit_key e hhit
  have hclean : (Shape.tree t).DeletesCleanly Γ.P Γ.env.comparator key ↔
      ¬ e.Live ∧ LeafMends Γ.P p.ctx.sides (p.left ++ p.right) := by
    simp only [Shape.DeletesCleanly, hroute, hp.sides_eq]
    simp [hkey]
  have hroom : (Shape.tree t).deleteRoom Γ.P Γ.env.comparator key =
      entriesPages Γ.P (p.left ++ e :: p.right) + mendRoom Γ.P p.ctx.sides + (D + 1) := by
    simp only [Shape.deleteRoom, hroute, hp.sides_eq]
  -- The room covers what is left of the leaf, which may move again when the leaf is balanced.
  have hpages : entriesPages Γ.P (p.left ++ p.right) ≤
      entriesPages Γ.P (p.left ++ e :: p.right) := by
    simp only [entriesPages_append, entriesPages_cons]
    omega
  have hown := h.own
  rw [hroom] at hown
  obtain ⟨iter, s₁, hcopy, c, pgid, txid, rfl, hcopied, hfree, hsides, hkeep, h₁, -⟩ :=
    Own.copyAllPagesByPath
      (b := b + (entriesPages Γ.P (p.left ++ p.right) + mendRoom Γ.P p.ctx.sides)) p .kEq
      (by rw [hp.tree_eq]; exact hown.room_mono _ (by omega)) (by rw [hp.tree_eq]; exact h.safe)
  have halike := hcopied.alike
  have hctx : p.ctx.Full := by
    have hfull := h.full
    rw [← hp.tree_eq] at hfull
    exact p.ctx.full_of_plug hfull
  have hrecords : without key (Shape.tree t).contents =
      records (c.before ++ recordItems (p.left ++ p.right) ++ c.after) := by
    refine hp.without_eq.trans ?_
    rw [halike.before_eq, halike.after_eq]
    simp [records_append, recordItems_append]
  -- Taking a record away keeps the order and adds no key.
  have hsublist : (c.before ++ recordItems (p.left ++ p.right) ++ c.after).Sublist t.flat := by
    rw [halike.before_eq, halike.after_eq]
    exact hp.sublist_without
  have hord : (c.before ++ recordItems (p.left ++ p.right) ++ c.after).Pairwise
      (Item.Below Γ.env.comparator) :=
    List.Pairwise.sublist hsublist h.ordered
  have hkeys : ∀ x ∈ c.before ++ recordItems (p.left ++ p.right) ++ c.after,
      (Shape.tree t).HasKey x.key :=
    fun x hx => ⟨x, hsublist.subset hx, rfl⟩
  rw [hentries, ← halike.sides_eq] at h₁
  obtain ⟨hok, hbad⟩ := deleteAt_leaf ⟨hfree, halike.full_iff.2 hctx, hsides⟩ hkeep
    (h.own.depth_lt h.full) hord hkeys h₁
  rw [halike.sides_eq] at hok hbad
  -- From here on only `deleteAt` on the copied path is left to do.
  have hrun : BTree.delete Γ.env key s = (do
      BTree.deleteAt Γ.env ⟨(pgid, p.left.length) :: c.stack, .kEq⟩
      return true : TxM Bool) s₁ := by
    unfold BTree.delete BTree.deleteWith
    rw [Exec.bind_of_ok hlower, if_neg (fun hne => hne rfl), Exec.bind_of_ok hcopy]
    rfl
  rw [hclean, hrecords]
  constructor
  · intro hgood
    obtain ⟨_, s', hdelete, hs'⟩ := hok hgood
    refine ⟨s', ?_, hs'⟩
    rw [hrun, Exec.bind_of_ok hdelete]
    rfl
  · intro hnot r s' hs'
    rw [hrun] at hs'
    obtain ⟨_, s'', hdelete, hreturn⟩ := Exec.bind_eq_ok hs'
    obtain rfl := (Prod.mk.inj hreturn).2
    exact hbad hnot s'' hdelete

/-- A key that is not there. -/
theorem WellFormed.delete_absent {t : Shape} (h : WellFormed Γ b t O s)
    (hnone : find key t.contents = none) :
    BTree.delete Γ.env key s = (.ok false, s) ∧ t.DeletesCleanly Γ.P Γ.env.comparator key := by
  unfold BTree.delete BTree.deleteWith
  cases t with
  | empty =>
    have hroot : s.rootPgid = kPageInvalidId := h.own.root
    refine ⟨?_, trivial⟩
    rw [Exec.bind_of_ok (BTree.lowerBound_empty Γ.env key hroot)]
    rfl
  | tree t =>
    obtain ⟨p, status, hp, hstatus, hlower⟩ := h.own.treeLowerBound h.ordered h.full key
    have hhit : p.hit = none := Option.map_eq_none_iff.1 (hp.find_eq.symm.trans hnone)
    have hne : status ≠ .kEq := by
      intro heq
      have hsome := hstatus.1 heq
      rw [hhit] at hsome
      cases hsome
    constructor
    · rw [Exec.bind_of_ok hlower, if_pos hne]
      rfl
    · intro e he hkey
      have hsome := hp.hit_of_head he hkey
      rw [hhit] at hsome
      cases hsome

/-- A key that is there. -/
theorem WellFormed.delete_present {t : Shape}
    (h : WellFormed Γ (b + t.deleteRoom Γ.P Γ.env.comparator key) t O s)
    (hsome : find key t.contents ≠ none) :
    (t.DeletesCleanly Γ.P Γ.env.comparator key → ∃ s', BTree.delete Γ.env key s = (.ok true, s') ∧
      HoldsContents Γ b (without key t.contents) t.HasKey O s') ∧
    (¬ t.DeletesCleanly Γ.P Γ.env.comparator key →
      ¬ ∃ s', BTree.delete Γ.env key s = (.ok true, s') ∧
        HoldsContents Γ b (without key t.contents) t.HasKey O s') := by
  cases t with
  | empty => exact absurd rfl hsome
  | @tree D t =>
    obtain ⟨p, status, hp, hstatus, hlower⟩ := h.own.treeLowerBound h.ordered h.full key
    cases hhit : p.hit with
    | none =>
      have hfind : find key (Shape.tree t).contents = p.hit.map fun e => (e.value, e.isBucket) :=
        hp.find_eq
      rw [hhit] at hfind
      exact absurd hfind hsome
    | some e =>
      obtain rfl : status = .kEq := hstatus.2 (by rw [hhit]; rfl)
      obtain ⟨hgood, hbad⟩ := h.delete_found hp hhit hlower
      refine ⟨hgood, fun hnot => ?_⟩
      rintro ⟨s', hrun, t', G, -, -, -, hwf⟩
      exact hbad hnot _ s' hrun b t' (G + O) hwf

theorem find_ne_none_iff {l : List (Bytes × Bytes × Bool)} :
    find key l ≠ none ↔ ∃ d ∈ l, d.1 = key := by
  unfold find
  rw [Ne, Option.map_eq_none_iff, List.find?_eq_none]
  push Not
  simp only [decide_eq_true_eq]

/-- What `Delete` is for: a key that is there goes with its record and everything else stays; for
another key nothing happens. -/
def RemovesKey (Γ : Scope) (b : ℕ) (key : Bytes) (t : Shape) (O : Multiset Obj)
    (s : TxState) : Prop :=
  ((∃ d ∈ t.contents, d.1 = key) → ∃ s', BTree.delete Γ.env key s = (.ok true, s') ∧
      HoldsContents Γ b (without key t.contents) t.HasKey O s') ∧
    ((∀ d ∈ t.contents, d.1 ≠ key) → BTree.delete Γ.env key s = (.ok false, s))

/-- **The deletion law.** -/
theorem removesKey_iff {t : Shape}
    (h : WellFormed Γ (b + t.deleteRoom Γ.P Γ.env.comparator key) t O s) :
    RemovesKey Γ b key t O s ↔ t.DeletesCleanly Γ.P Γ.env.comparator key := by
  unfold RemovesKey
  by_cases hnone : find key t.contents = none
  · -- there is nothing to do
    obtain ⟨hrun, hclean⟩ := h.delete_absent hnone
    refine iff_of_true ⟨fun hsome => absurd hnone (find_ne_none_iff.2 hsome), fun _ => hrun⟩ hclean
  · obtain ⟨hgood, hbad⟩ := h.delete_present hnone
    have hsome := find_ne_none_iff.1 hnone
    constructor
    · intro hremoves
      by_contra hnot
      exact hbad hnot (hremoves.1 hsome)
    · intro hclean
      refine ⟨fun _ => hgood hclean, fun habsent => ?_⟩
      obtain ⟨d, hd, hkey⟩ := hsome
      exact absurd hkey (habsent d hd)

/-- **The deletion law, with one answer.** `BTree::Delete` returns whether the key is there, and
takes its record out of the tree. The keys between the leaves are keys of the old tree. -/
theorem delete_removes_iff {t : Shape}
    (h : WellFormed Γ (b + t.deleteRoom Γ.P Γ.env.comparator key) t O s) :
    (∃ s', BTree.delete Γ.env key s = (.ok (find key t.contents).isSome, s') ∧
      HoldsContents Γ b (without key t.contents) t.HasKey O s') ↔
      t.DeletesCleanly Γ.P Γ.env.comparator key := by
  by_cases hnone : find key t.contents = none
  · obtain ⟨hrun, hclean⟩ := h.delete_absent hnone
    have hsame : without key t.contents = t.contents :=
      without_eq_self fun d hd hkey => find_ne_none_iff.2 ⟨d, hd, hkey⟩ hnone
    have hkeep : HoldsContents Γ b (without key t.contents) t.HasKey O s := by
      refine ⟨t, 0, JunkOnly.zero, hsame.symm, fun x hx => ⟨x, hx, rfl⟩, ?_⟩
      rw [zero_add]
      exact ⟨h.own.room_mono b (Nat.le_add_right _ _), h.ordered, h.full, h.safe⟩
    rw [hnone]
    exact iff_of_true ⟨s, hrun, hkeep⟩ hclean
  · obtain ⟨hgood, hbad⟩ := h.delete_present hnone
    rw [Option.isSome_iff_ne_none.2 hnone]
    exact ⟨fun hremoves => by_contra fun hnot => hbad hnot hremoves, hgood⟩

end Law

/-! ## Trees that lose a record -/

section Example

/-- A root with two long keys above three branches. -/
def tallTree : Tree 2 :=
  .branch 9 1 [keyEntry (longKey 65), keyEntry (longKey 107)]
    [.branch 4 1 [keyEntry (longKey 61)]
        [.leaf 2 1 [keyEntry [27], keyEntry [35]], .leaf 7 1 [keyEntry (longKey 61)]] rfl,
      .branch 13 1 [keyEntry (longKey 89)]
        [.leaf 10 1 [keyEntry (longKey 65), keyEntry (longKey 87)],
          .leaf 12 1 [keyEntry (longKey 89)]] rfl,
      .branch 8 1 [keyEntry [128], keyEntry [140], keyEntry [145]]
        [.leaf 5 1 [keyEntry (longKey 107), keyEntry (longKey 119)],
          .leaf 11 1 [⟨[128], List.replicate 100 1, false, 0⟩],
          .leaf 6 1 [keyEntry [140], keyEntry [141]],
          .leaf 3 1 [⟨[145], List.replicate 100 1, false, 0⟩, keyEntry [184]]] rfl] rfl

theorem wellFormed_tallTree (b : ℕ) (hb : b ≤ 1000) :
    WellFormed (layoutScope smallEnv smallEnv_ok freshMeta 12) b (.tree tallTree) 0
      (layout 256 freshMeta 9 tallTree.nodes) :=
  wellFormed_layout (t := tallTree)
    (by decide) (by decide) (by decide) (by decide)
    (by unfold kPageMaxCount; show 12 + 2 + b ≤ _; omega)

/-- A leaf runs empty; the branch above it is left without a key, and is merged as well. -/
theorem removesKey_iff_tallTree :
    RemovesKey (layoutScope smallEnv smallEnv_ok freshMeta 12) 0 (longKey 61) (.tree tallTree) 0
      (layout 256 freshMeta 9 tallTree.nodes) :=
  (removesKey_iff (wellFormed_tallTree _ (by decide))).2 (by decide)

/-- **The deletion law fails.** Two branches that have to be merged need more than one page. -/
theorem not_removesKey : ∃ (Γ : Scope) (b : ℕ) (t : Shape) (O : Multiset Obj) (s : TxState)
    (key : Bytes), WellFormed Γ (b + t.deleteRoom Γ.P Γ.env.comparator key) t O s ∧
      ¬ RemovesKey Γ b key t O s := by
  have hwf := wellFormed_tallTree
    (0 + (Shape.tree tallTree).deleteRoom 256 smallEnv.comparator [145]) (by decide)
  refine ⟨_, 0, .tree tallTree, 0, _, [145], hwf, ?_⟩
  rintro ⟨hremoves, -⟩
  exact (hwf.delete_present (by decide)).2 (by decide) (hremoves (by decide))

/-- The leaf of the short key runs empty and becomes one with the leaf next to it. -/
theorem delete_removes_iff_wideTree : ∃ s',
    BTree.delete smallEnv [2] (layout 256 freshMeta 2 wideTree.nodes) =
        (.ok (find [2] (Shape.tree wideTree).contents).isSome, s') ∧
      HoldsContents (layoutScope smallEnv smallEnv_ok freshMeta 5) 0
        (without [2] (Shape.tree wideTree).contents) (Shape.tree wideTree).HasKey 0 s' :=
  (delete_removes_iff (b := 0) (wellFormed_wideTree _ (by decide))).2 (by decide)

end Example

end AtomKV
