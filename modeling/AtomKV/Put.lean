import AtomKV.WellFormed
import AtomKV.SplitLeaf

/-!
# Insertion

`BTree::Put` of a key that the tree does not hold. The route of the key through the tree, a function
of the tree alone, says whether the record fits into its leaf and which branches split. When every
branch split on the way up makes do with its first try, the tree stays well-formed and gains the
record in its place; otherwise two branches share a child afterwards.
-/

set_option autoImplicit false

namespace AtomKV

/-! ## The route of a key -/

/-- What a key meets on its way down: the keys left and right of the path in each branch, from the
leaf up, and the records below the key and not below it in the leaf. -/
structure Route where
  levels : List (List Entry × List Entry)
  left : List Entry
  right : List Entry

/-- The route of `key` through a tree; `above` are the branches passed already. -/
def Tree.route (cmp : Bytes → Bytes → Ordering) (key : Bytes) :
    {d : ℕ} → Tree d → List (List Entry × List Entry) → Route
  | 0, t, above =>
      ⟨above, (LeafNodeT.entries t).takeWhile fun e => cmp e.key key = .lt,
        (LeafNodeT.entries t).dropWhile fun e => cmp e.key key = .lt⟩
  | d + 1, t, above =>
      let es := BranchNodeT.entries t
      let n := (es.takeWhile fun e => cmp key e.key ≠ .lt).length
      match (BranchNodeT.kids t)[n]? with
      | some k => route cmp key (d := d) k ((es.take n, es.drop n) :: above)
      | none => ⟨above, [], []⟩

namespace Shape

/-- The insertion of a record splits no branch that has to take its second try. -/
def InsertsCleanly (P : Nat) (cmp : Bytes → Bytes → Ordering) (key value : Bytes) : Shape → Prop
  | empty => True
  | tree t =>
      let r := t.route cmp key []
      Fits P (r.left ++ r.right) key value ∨
        RisesCleanly P r.levels (leafRisingKey P (r.left ++ r.right) r.left.length key value)

instance (P : Nat) (cmp : Bytes → Bytes → Ordering) (key value : Bytes) (t : Shape) :
    Decidable (t.InsertsCleanly P cmp key value) := by
  cases t with
  | empty => exact inferInstanceAs (Decidable True)
  | tree t => exact inferInstanceAs (Decidable (_ ∨ _))

end Shape

section Route

variable {cmp : Bytes → Bytes → Ordering} {key : Bytes}

theorem takeWhile_append_all {α : Type} {p : α → Bool} (l₁ l₂ : List α) (h₁ : ∀ a ∈ l₁, p a = true)
    (h₂ : ∀ a ∈ l₂, p a = false) : (l₁ ++ l₂).takeWhile p = l₁ ∧ (l₁ ++ l₂).dropWhile p = l₂ := by
  rw [List.takeWhile_append_of_pos h₁, List.dropWhile_append_of_pos h₁]
  cases l₂ with
  | nil => simp
  | cons a l₂ => simp [h₂ a List.mem_cons_self]

theorem Tree.route_of_kid {d n : ℕ} {t : Tree (d + 1)} {k : Tree d}
    {above : List (List Entry × List Entry)}
    (hn : ((BranchNodeT.entries t).takeWhile fun e => cmp key e.key ≠ .lt).length = n)
    (hk : (BranchNodeT.kids t)[n]? = some k) :
    Tree.route (d := d + 1) cmp key t above =
      k.route cmp key
        (((BranchNodeT.entries t).take n, (BranchNodeT.entries t).drop n) :: above) := by
  subst hn
  simp only [Tree.route, hk]

/-- The route goes through a frame whose keys lie on their sides of the key. -/
theorem Frame.route_fill {d : ℕ} (f : Frame d) (t : Tree d) (above : List (List Entry × List Entry))
    (hL : ∀ a ∈ f.esL, cmp key a.key ≠ .lt) (hR : ∀ a ∈ f.esR, cmp key a.key = .lt) :
    (f.fill t).route cmp key above = t.route cmp key ((f.esL, f.esR) :: above) := by
  obtain ⟨htake, -⟩ := takeWhile_append_all (p := fun e : Entry => decide (cmp key e.key ≠ .lt))
    f.esL f.esR (fun a ha => decide_eq_true (hL a ha))
    (fun a ha => decide_eq_false fun h => h (hR a ha))
  have hentries : BranchNodeT.entries (f.fill t) = f.esL ++ f.esR := rfl
  have hkid : (BranchNodeT.kids (f.fill t))[f.esL.length]? = some t := by
    show (f.ksL ++ t :: f.ksR)[f.esL.length]? = some t
    simp [← f.lenL]
  rw [Tree.route_of_kid (by rw [hentries, htake]) hkid, hentries, List.take_left, List.drop_left]

theorem Ctx.route_plug {d D : ℕ} (c : Ctx d D) (t : Tree d) (above : List (List Entry × List Entry))
    (hlow : ∀ x ∈ c.before, x.Low cmp key) (hhigh : ∀ x ∈ c.after, x.High cmp key) :
    (c.plug t).route cmp key above = t.route cmp key (c.levels ++ above) := by
  induction c generalizing above with
  | top => rfl
  | under f c ih =>
    have hbefore : ∀ a ∈ f.esL, Item.separator a.key ∈ (Ctx.under f c).before := fun a ha =>
      List.mem_append_right _ (mem_weavePre_of_mem (by simpa using f.lenL) (List.mem_map_of_mem ha))
    have hafter : ∀ a ∈ f.esR, Item.separator a.key ∈ (Ctx.under f c).after := fun a ha =>
      List.mem_append_left _ (mem_weavePost_of_mem (by simpa using f.lenR) (List.mem_map_of_mem ha))
    rw [Ctx.plug, ih (f.fill t) above (fun x hx => hlow x (List.mem_append_left _ hx))
      (fun x hx => hhigh x (List.mem_append_right _ hx)),
      f.route_fill t _ (fun a ha => hlow _ (hbefore a ha)) (fun a ha => hhigh _ (hafter a ha))]
    rfl

/-- The place of a key is where its route ends. -/
theorem Place.At.route_eq [Std.TransCmp cmp] {D : ℕ} {p : Place D} {t : Tree D}
    (h : p.At cmp key t) :
    t.route cmp key [] = ⟨p.ctx.levels, p.left, p.hit.toList ++ p.right⟩ := by
  have hroute := p.ctx.route_plug (.leaf p.pgid p.txid p.entries) []
    (fun x hx => h.low x (List.mem_append_left _ hx))
      (fun x hx => h.high x (List.mem_append_right _ hx))
  rw [← h.tree_eq]
  refine hroute.trans ?_
  obtain ⟨htake, hdrop⟩ := takeWhile_append_all (p := fun e : Entry => decide (cmp e.key key = .lt))
    p.left (p.hit.toList ++ p.right)
    (fun a ha => decide_eq_true (h.low (.record a.data)
      (List.mem_append_right _ (List.mem_map_of_mem ha))))
    (fun a ha => decide_eq_false fun hlt => by
      rcases List.mem_append.1 ha with ha | ha
      · rw [h.hit_key a (Option.mem_toList.1 ha)] at hlt
        exact Compare.irrefl key hlt
      · exact Compare.not_lt_of_lt (h.high (.record a.data)
          (List.mem_append_left _ (List.mem_map_of_mem ha))) hlt)
  show (⟨p.ctx.levels ++ [], _, _⟩ : Route) = _
  rw [List.append_nil]
  show (⟨p.ctx.levels, p.entries.takeWhile _, p.entries.dropWhile _⟩ : Route) = _
  unfold Place.entries
  rw [htake, hdrop]

end Route

/-! ## The order of the new sequence -/

section Order

variable {cmp : Bytes → Bytes → Ordering}

theorem pairwise_insert {α : Type} {R : α → α → Prop} {l₁ l₂ : List α} {a : α}
    (h : (l₁ ++ l₂).Pairwise R) (h₁ : ∀ x ∈ l₁, R x a) (h₂ : ∀ y ∈ l₂, R a y) :
    (l₁ ++ a :: l₂).Pairwise R := by
  obtain ⟨p₁, p₂, p₃⟩ := List.pairwise_append.1 h
  refine List.pairwise_append.2 ⟨p₁, List.pairwise_cons.2 ⟨h₂, p₂⟩, fun x hx y hy => ?_⟩
  rcases List.mem_cons.1 hy with rfl | hy
  · exact h₁ x hx
  · exact p₃ x hx y hy

/-- The key of a record may be put between the record and the one before it. -/
theorem pairwise_separator [Std.TransCmp cmp] {X Y : List Item} {a d : Bytes × Bytes × Bool}
    (h : (X ++ .record a :: .record d :: Y).Pairwise (Item.Below cmp)) :
    (X ++ .record a :: .separator d.1 :: .record d :: Y).Pairwise (Item.Below cmp) := by
  have hassoc : ∀ Z, X ++ .record a :: Z = (X ++ [.record a]) ++ Z := fun Z => by simp
  rw [hassoc] at h ⊢
  obtain ⟨p₁, p₂, p₃⟩ := List.pairwise_append.1 h
  obtain ⟨hd, -⟩ := List.pairwise_cons.1 p₂
  have had : cmp a.1 d.1 = .lt :=
    p₃ (.record a) (List.mem_append_right _ List.mem_cons_self) (.record d) List.mem_cons_self
  refine pairwise_insert h (fun x hx => ?_) fun y hy => ?_
  · cases x with
    | record c => exact p₃ (.record c) hx (.record d) List.mem_cons_self
    | separator c =>
      -- a separator further left is not above `a`, which is below `d`
      have hX : Item.separator c ∈ X := by
        rcases List.mem_append.1 hx with hx | hx
        · exact hx
        · simp at hx
      have hca : Item.Below cmp (.separator c) (.record a) :=
        (List.pairwise_append.1 p₁).2.2 _ hX _ List.mem_cons_self
      exact Compare.lt_of_le_of_lt hca had
  · rcases List.mem_cons.1 hy with rfl | hy
    · exact Compare.irrefl d.1
    · cases hy' : y with
      | record c =>
        have := hd y hy
        rw [hy'] at this
        exact Compare.not_lt_of_lt this
      | separator c =>
        have := hd y hy
        rw [hy'] at this
        exact this

/-- The record of a key that is not there keeps the sequence in order. -/
theorem Place.At.pairwise_record [Std.TransCmp cmp] {D : ℕ} {p : Place D} {t : Tree D} {key : Bytes}
    (h : p.At cmp key t) (hord : t.Ordered cmp) (hhit : p.hit = none)
    (value : Bytes) (isBucket : Bool) :
    ((p.ctx.before ++ recordItems p.left) ++
      .record (key, value, isBucket) :: (recordItems p.right ++ p.ctx.after)).Pairwise
        (Item.Below cmp) := by
  unfold Tree.Ordered at hord
  rw [← h.tree_eq, p.flat_tree, hhit] at hord
  exact pairwise_insert hord (fun x hx => (h.low x hx).below_record value isBucket)
    fun x hx => (h.high x hx).record_below value isBucket

/-- The keys of the sequence with the record of a new key. -/
theorem Place.At.keys_record {D : ℕ} {p : Place D} {t : Tree D} {key : Bytes} (h : p.At cmp key t)
    (hhit : p.hit = none) (value : Bytes) (isBucket : Bool) :
    ∀ x ∈ (p.ctx.before ++ recordItems p.left) ++ .record (key, value, isBucket) ::
      (recordItems p.right ++ p.ctx.after), x.key = key ∨ (Shape.tree t).HasKey x.key := by
  have hold : ∀ x ∈ (p.ctx.before ++ recordItems p.left) ++ (recordItems p.right ++ p.ctx.after),
      x ∈ t.flat := by
    intro x hx
    rw [← h.tree_eq, p.flat_tree, hhit]
    exact hx
  intro x hx
  rw [List.mem_append, List.mem_cons] at hx
  rcases hx with hx | rfl | hx
  · exact .inr ⟨x, hold x (List.mem_append_left _ hx), rfl⟩
  · exact .inl rfl
  · exact .inr ⟨x, hold x (List.mem_append_right _ hx), rfl⟩

end Order

/-! ## The whole insertion -/

theorem Ctx.full_of_plug {d D : ℕ} (c : Ctx d D) {t : Tree d} (h : (c.plug t).RootFull) :
    c.Full := by
  cases c with
  | top => trivial
  | under f c => exact ((Ctx.rootFull_under f c t).1 h).1

theorem Tree.Full.rootFull {d : ℕ} {t : Tree d} (h : t.Full) : t.RootFull := by
  cases d with
  | zero => trivial
  | succ d => exact h

/-- Pages that the insertion of a record can take. -/
def Shape.putRoom (P : Nat) (cmp : Bytes → Bytes → Ordering) (key value : Bytes) : Shape → ℕ
  | .empty => recordPages P key value + 1
  | @Shape.tree D t =>
      let r := t.route cmp key []
      levelsRoom P r.levels +
        (1 + 2 * entriesPages P (r.left ++ r.right) + recordPages P key value) + (D + 1)

section Insertion

variable {Γ : Scope} {b : ℕ} {O : Multiset Obj} {s : TxState} {key value : Bytes}

/-- The tree's first record. -/
theorem WellFormed.put_empty (h : WellFormed Γ (b + (recordPages Γ.P key value + 1)) .empty O s)
    (hadm : Admissible Γ.P key value) (isBucket : Bool) :
    Exec.Ok (BTree.put Γ.env key value isBucket) s fun _ s' =>
      ∃ t' : Shape, t'.contents = [(key, value, isBucket)] ∧ (∀ x ∈ t'.flat, x.key = key) ∧
        WellFormed Γ b t' O s' := by
  have hroot : s.rootPgid = kPageInvalidId := h.own.root
  have hlower := BTree.lowerBound_empty Γ.env key hroot
  have hcopy : BTreeIterator.copyAllPagesByPath Γ.env BTreeIterator.init s =
      (.ok BTreeIterator.init, s) := rfl
  have h₀ : Own Γ (b + recordPages Γ.P key value + 1) kPageInvalidId O s :=
    (h.own.room_mono _ (by omega)).perm (zero_add O)
  obtain ⟨root, s₁, halloc, h₁⟩ := h₀.alloc
  obtain ⟨s₂, hbuild, hkeep, h₂, -⟩ := (h₁.setRoot root).buildLeaf
  have hfit : Fits Γ.P ([] ++ []) key value := by
    refine fits_of_half Γ.hP ?_ key value
    simp
  obtain ⟨s₃, s₄, run, old, hins, h₃, hset, h₄⟩ :=
    Own.leafInsert_flag (show Own Γ _ _ (.node root (.leaf Γ.txid ([] ++ [])) ::ₘ O) s₂ from h₂)
      hkeep hadm hfit (hfit.slotFits Γ.ok.pageSize) isBucket
  refine Exec.Ok.intro () s₄ ?_
    ⟨.tree (.leaf root Γ.txid [⟨key, value, isBucket, run⟩]), rfl,
      fun x hx => List.mem_singleton.1 hx ▸ rfl, h₄, ?_, trivial, fun hk => absurd hk hkeep⟩
  · unfold BTree.put
    rw [Exec.bind_of_ok hlower, Exec.bind_of_ok hcopy]
    unfold BTree.putAt assert
    simp only [BTreeIterator.init]
    rw [Exec.bind_of_ok halloc, Exec.change_bind, Exec.bind_of_ok hbuild,
      Exec.bind_of_ok (show LeafNode.insert Γ.env root 0 key value s₂ = _ from hins),
        Exec.require_bind rfl]
    exact hset
  · exact List.pairwise_singleton _ _

/-- The tree around a leaf that was written. -/
theorem WellFormed.of_leaf {D : ℕ} {c : Ctx 0 D} {pgid txid : Nat} {es : List Entry}
    (h : Own Γ b (c.rootId pgid) (.node pgid (.leaf txid es) ::ₘ (c.objs pgid + O)) s)
    (hord : (c.plug (.leaf pgid txid es)).Ordered Γ.env.comparator) (hfull : c.Full) (hne : es ≠ [])
    (hfree : c.Free Γ.keep) (hsides : c.SidesSafe Γ.need Γ.keep) (hkeep : ¬ Γ.keep pgid) :
    WellFormed Γ b (.tree (c.plug (.leaf pgid txid es))) O s := by
  refine ⟨?_, hord, ?_, c.safe_plug _ hfree hsides fun hk => absurd hk hkeep⟩
  · show Own Γ b (c.plug (.leaf pgid txid es)).pgid ((c.plug (.leaf pgid txid es)).objs + O) s
    rw [Ctx.pgid_plug, Ctx.objs_plug, Tree.objs_leaf]
    refine h.perm ?_
    simp only [Tree.pgid_leaf, ← Multiset.singleton_add]
    abel
  · exact ((c.full_plug _).2 ⟨hfull, (Tree.full_leaf ..).2 hne⟩).rootFull

/-- The leaf has room for the record. -/
theorem WellFormed.put_fits {D : ℕ} {p : Place D} {t : Tree D} {c : Ctx 0 D} {pgid txid : Nat}
    (iter : BTreeIterator) (hp : p.At Γ.env.comparator key t) (hord : t.Ordered Γ.env.comparator)
    (hfull : t.RootFull) (hhit : p.hit = none)
    (hiter : iter.stack = (pgid, p.left.length) :: c.stack)
    (hstatus : iter.status ≠ .kEq) (halike : Ctx.Alike p.ctx c) (hfree : c.Free Γ.keep)
    (hsides : c.SidesSafe Γ.need Γ.keep) (hkeep : ¬ Γ.keep pgid) (hadm : Admissible Γ.P key value)
    (h : Own Γ (b + recordPages Γ.P key value) (c.rootId pgid)
      (.node pgid (.leaf txid (p.left ++ p.right)) ::ₘ (c.objs pgid + O)) s)
    (hfit : Fits Γ.P (p.left ++ p.right) key value) (isBucket : Bool) :
    Exec.Ok (BTree.putAt Γ.env iter key value false isBucket) s fun _ s' =>
      ∃ t' : Tree D, records t'.flat = records (p.ctx.before ++ recordItems p.left) ++
          (key, value, isBucket) :: records (recordItems p.right ++ p.ctx.after) ∧
        (∀ x ∈ t'.flat, x.key = key ∨ (Shape.tree t).HasKey x.key) ∧
        WellFormed Γ b (.tree t') O s' := by
  have := Γ.ok.trans
  obtain ⟨s₁, s₂, run, old, hins, -, hset, h₂⟩ :=
    h.leafInsert_flag hkeep hadm hfit (hfit.slotFits Γ.ok.pageSize) isBucket
  -- The new leaf, put back into the path of copies.
  set u : Tree 0 := .leaf pgid txid (p.left ++ ⟨key, value, isBucket, run⟩ :: p.right) with hu
  have hflat : (c.plug u).flat = (p.ctx.before ++ recordItems p.left) ++
      .record (key, value, isBucket) :: (recordItems p.right ++ p.ctx.after) := by
    rw [Ctx.flat_plug, halike.before_eq, halike.after_eq, hu, Tree.flat_leaf, recordItems_append,
      recordItems_cons]
    simp only [List.append_assoc, List.cons_append]
    rfl
  have hctx : p.ctx.Full := by
    rw [← hp.tree_eq] at hfull
    exact p.ctx.full_of_plug hfull
  -- The place was found by the order of the keys, so the new key is between its neighbours.
  have hord' : (c.plug u).Ordered Γ.env.comparator := by
    unfold Tree.Ordered
    rw [hflat]
    exact hp.pairwise_record hord hhit value isBucket
  refine Exec.Ok.intro () s₂ ?_
    ⟨c.plug u, ?_, ?_, WellFormed.of_leaf h₂ hord' (halike.full_iff.2 hctx) (by simp) hfree
    hsides hkeep⟩
  · unfold BTree.putAt
    rw [hiter]
    simp only [hstatus, Bool.not_false, decide_false, Bool.and_false, Bool.false_eq_true, if_false]
    rw [Exec.bind_of_ok hins]
    exact hset
  · rw [hflat, records_append, records_cons_record]
  · rw [hflat]
    exact hp.keys_record hhit value isBucket

/-- The leaf is split. -/
theorem WellFormed.put_split {D : ℕ} {p : Place D} {t : Tree D} {c : Ctx 0 D} {pgid txid : Nat}
    (iter : BTreeIterator) (hp : p.At Γ.env.comparator key t) (hord : t.Ordered Γ.env.comparator)
    (hfull : t.RootFull) (hhit : p.hit = none)
    (hiter : iter.stack = (pgid, p.left.length) :: c.stack)
    (hstatus : iter.status ≠ .kEq) (halike : Ctx.Alike p.ctx c) (hfree : c.Free Γ.keep)
    (hsides : c.SidesSafe Γ.need Γ.keep) (hkeep : ¬ Γ.keep pgid) (hadm : Admissible Γ.P key value)
    (h : Own Γ (b + levelsRoom Γ.P c.levels +
        (1 + 2 * entriesPages Γ.P (p.left ++ p.right) + recordPages Γ.P key value)) (c.rootId pgid)
      (.node pgid (.leaf txid (p.left ++ p.right)) ::ₘ (c.objs pgid + O)) s)
    (hfit : ¬ Fits Γ.P (p.left ++ p.right) key value) (isBucket : Bool) :
    Exec.Ok (BTree.putAt Γ.env iter key value false isBucket) s fun _ s' =>
      (RisesCleanly Γ.P c.levels (leafRisingKey Γ.P (p.left ++ p.right) p.left.length key value) →
        ∃ (D' : ℕ) (t' : Tree D') (G : Multiset Obj),
          records t'.flat = records (p.ctx.before ++ recordItems p.left) ++
            (key, value, isBucket) :: records (recordItems p.right ++ p.ctx.after) ∧
          (∀ x ∈ t'.flat, x.key = key ∨ (Shape.tree t).HasKey x.key) ∧
          JunkOnly G ∧ (SmallSizes (p.left ++ p.right) → G = 0) ∧
            WellFormed Γ b (.tree t') (G + O) s') ∧
      (¬ RisesCleanly Γ.P c.levels (leafRisingKey Γ.P (p.left ++ p.right) p.left.length key value) →
        s'.SharesChild) := by
  have := Γ.ok.trans
  obtain ⟨right, s₁, hsplit, hright, G, L, u, R, hdata, hL, hkey, hG, hG0, h₁⟩ :=
    splitLeaf_ok hkeep isBucket hadm h hfit
  have hrefused := h.leafInsert_refused hfit
  have hmem : Obj.node right (.leaf Γ.txid (u :: R)) ∈ .node pgid (.leaf txid L) ::ₘ
      .node right (.leaf Γ.txid (u :: R)) ::ₘ (G + (c.objs pgid + O)) :=
    Multiset.mem_cons_of_mem (Multiset.mem_cons_self _ _)
  have hfirst : Node.getKey Γ.env right 0 s₁ = (.ok u.key, s₁) := h₁.getKey hmem rfl
  have hadm' : Admissible Γ.P u.key [] := by
    obtain ⟨h1, h2, -⟩ := h₁.admissible_of_mem hmem u List.mem_cons_self
    exact ⟨h1, h2, Nat.zero_le _⟩
  obtain ⟨_, s₂, hput, hgood, hbad⟩ := putBranch_ok c hfree hadm'
    (b := b) pgid right
    (O := .node pgid (.leaf txid L) ::ₘ .node right (.leaf Γ.txid (u :: R)) ::ₘ (G + O))
      (h₁.perm (by
      simp only [← Multiset.singleton_add]
      abel))
  have hrun : BTree.putAt Γ.env iter key value false isBucket s = (.ok (), s₂) := by
    unfold BTree.putAt
    rw [hiter]
    simp only [hstatus, Bool.not_false, decide_false, Bool.and_false, Bool.false_eq_true, if_false]
    rw [Exec.bind_of_ok hrefused]
    simp only [Bool.false_eq_true, if_false]
    rw [Exec.bind_of_ok hsplit, Exec.bind_of_ok hfirst]
    exact hput
  rw [← hkey]
  refine Exec.Ok.intro () s₂ hrun ⟨fun hrise => ?_, hbad⟩
  obtain ⟨D', root, N, hown, -, -, hjoins⟩ := hgood hrise
  obtain ⟨t', hroot, hobjs, hflat, hfull', hsafe⟩ :=
    hjoins (.leaf pgid txid L) (.leaf right Γ.txid (u :: R)) rfl rfl
  have hitems : recordItems (L ++ u :: R) = recordItems p.left ++ .record (key, value, isBucket) ::
      recordItems p.right := by
    rw [hdata.recordItems_eq, recordItems_append, recordItems_cons]
    rfl
  have hpair := hp.pairwise_record hord hhit value isBucket
  obtain ⟨L₀, a, rfl⟩ := (List.eq_nil_or_concat' L).resolve_left hL
  -- the first key of the right half comes in between the last record of the left half and its own
  have hsplitItems : (p.ctx.before ++ recordItems p.left) ++
      .record (key, value, isBucket) :: (recordItems p.right ++ p.ctx.after) =
      (p.ctx.before ++ recordItems L₀) ++ .record a.data :: .record u.data ::
        (recordItems R ++ p.ctx.after) := by
    have hmid := congrArg (fun l => p.ctx.before ++ (l ++ p.ctx.after)) hitems
    simpa using hmid.symm
  have hflat' : t'.flat = (p.ctx.before ++ recordItems L₀) ++
      .record a.data :: .separator u.key :: .record u.data :: (recordItems R ++ p.ctx.after) := by
    rw [hflat, halike.before_eq, halike.after_eq]
    simp
  have hctx : p.ctx.Full := by
    rw [← hp.tree_eq] at hfull
    exact p.ctx.full_of_plug hfull
  refine ⟨D', t', G, ?_, ?_, hG, hG0, ?_, ?_, ?_, ?_⟩
  · rw [hflat', ← records_cons_record, ← records_append, hsplitItems]
    simp
  · have hkeys := hp.keys_record hhit value isBucket
    rw [hsplitItems] at hkeys
    rw [hflat']
    intro x hx
    rw [List.mem_append, List.mem_cons, List.mem_cons] at hx
    rcases hx with hx | rfl | rfl | hx
    · exact hkeys x (List.mem_append_left _ hx)
    · exact hkeys _ (by simp)
    · exact hkeys (.record u.data) (by simp)
    · exact hkeys x (List.mem_append_right _ (List.mem_cons_of_mem _ hx))
  · show Own Γ b t'.pgid (t'.objs + (G + O)) s₂
    rw [hroot, hobjs]
    refine hown.perm ?_
    simp only [Tree.objs_leaf, ← Multiset.singleton_add]
    abel
  · show t'.flat.Pairwise _
    rw [hflat']
    rw [hsplitItems] at hpair
    exact pairwise_separator hpair
  · exact (hfull' (halike.full_iff.2 hctx) (by simp) (by simp)).rootFull
  · exact hsafe hsides (fun hk => absurd hk hkeep) fun hk => absurd hk hright

/-- **`BTree::Put` of a new key.** The keys between the leaves are keys that were there, and
the new one. -/
theorem WellFormed.put_insert_keys {t : Shape}
    (h : WellFormed Γ (b + t.putRoom Γ.P Γ.env.comparator key value) t O s)
    (hadm : Admissible Γ.P key value) (habsent : find key t.contents = none) (isBucket : Bool) :
    Exec.Ok (BTree.put Γ.env key value isBucket) s fun _ s' =>
      (t.InsertsCleanly Γ.P Γ.env.comparator key value →
        ∃ (A B : List (Bytes × Bytes × Bool)) (t' : Shape)
        (G : Multiset Obj), t.contents = A ++ B ∧ t'.contents = A ++ (key, value, isBucket) :: B ∧
          (∀ x ∈ t'.flat, x.key = key ∨ t.HasKey x.key) ∧ JunkOnly G ∧
            WellFormed Γ b t' (G + O) s') ∧
      (¬ t.InsertsCleanly Γ.P Γ.env.comparator key value → s'.SharesChild) := by
  have := Γ.ok.trans
  cases t with
  | empty =>
    obtain ⟨_, s', hrun, t', hcontents, hkeys, hwf⟩ := h.put_empty hadm isBucket
    exact Exec.Ok.intro () s' hrun
      ⟨fun _ => ⟨[], [], t', 0, rfl, hcontents, fun x hx => .inl (hkeys x hx), JunkOnly.zero,
      by rwa [zero_add]⟩, fun hnot => absurd trivial hnot⟩
  | @tree D t =>
    obtain ⟨p, status, hp, hstatus, hlower⟩ := h.own.treeLowerBound h.ordered h.full key
    have hhit : p.hit = none := by
      have hfind : find key (Shape.tree t).contents = p.hit.map fun e => (e.value, e.isBucket) :=
        hp.find_eq
      rw [habsent] at hfind
      exact Option.map_eq_none_iff.1 hfind.symm
    have hne : status ≠ .kEq := fun he => by
      have := hstatus.1 he
      rw [hhit] at this
      cases this
    -- The route that the condition speaks about is the one of the place that `LowerBound` found.
    have hroute : t.route Γ.env.comparator key [] = ⟨p.ctx.levels, p.left, p.right⟩ := by
      rw [hp.route_eq, hhit]
      rfl
    have hentries : p.entries = p.left ++ p.right := by
      unfold Place.entries
      rw [hhit]
      rfl
    have hroom : (Shape.tree t).putRoom Γ.P Γ.env.comparator key value =
        levelsRoom Γ.P p.ctx.levels +
          (1 + 2 * entriesPages Γ.P (p.left ++ p.right) + recordPages Γ.P key value) + (D + 1) := by
      simp only [Shape.putRoom, hroute]
    have hclean : (Shape.tree t).InsertsCleanly Γ.P Γ.env.comparator key value ↔
        Fits Γ.P (p.left ++ p.right) key value ∨ RisesCleanly Γ.P p.ctx.levels
          (leafRisingKey Γ.P (p.left ++ p.right) p.left.length key value) := by
      simp only [Shape.InsertsCleanly, hroute]
    have hcontents : (Shape.tree t).contents = records (p.ctx.before ++ recordItems p.left) ++
        records (recordItems p.right ++ p.ctx.after) := by
      have := hp.contents_eq
      rw [hhit] at this
      exact this
    have hown := h.own
    rw [hroom] at hown
    -- `CopyAllPagesByPath` moves the place onto copies; the entries of the leaf are the same.
    obtain ⟨iter, s₁, hcopy, c, pgid, txid, rfl, hcopied, hfree, hsides, hkeep, h₁, -⟩ :=
      Own.copyAllPagesByPath (b := b + (levelsRoom Γ.P p.ctx.levels +
        (1 + 2 * entriesPages Γ.P (p.left ++ p.right) + recordPages Γ.P key value))) p status
        (by rw [hp.tree_eq]; exact hown.room_mono _ (by omega)) (by rw [hp.tree_eq]; exact h.safe)
    have halike := hcopied.alike
    rw [hentries] at h₁
    have hrun : BTree.put Γ.env key value isBucket s =
        BTree.putAt Γ.env ⟨(pgid, p.left.length) :: c.stack, status⟩ key
          value false isBucket s₁ := by
      unfold BTree.put
      rw [Exec.bind_of_ok hlower, Exec.bind_of_ok hcopy]
    refine Exec.Ok.of_run_eq hrun ?_
    -- Only a leaf without room is split, and only a split can share a child.
    by_cases hfit : Fits Γ.P (p.left ++ p.right) key value
    · obtain ⟨_, s', hput, t', hrecords, hkeys, hwf⟩ :=
        WellFormed.put_fits (b := b) ⟨_, status⟩ hp h.ordered h.full hhit
        rfl hne halike hfree hsides hkeep hadm
          (h₁.room_mono (b + recordPages Γ.P key value) (by omega)) hfit isBucket
      exact Exec.Ok.intro () s' hput
        ⟨fun _ => ⟨_, _, .tree t', 0, hcontents, hrecords, hkeys, JunkOnly.zero,
        by rwa [zero_add]⟩, fun hnot => absurd (hclean.2 (.inl hfit)) hnot⟩
    · obtain ⟨_, s', hput, hgood, hbad⟩ :=
        WellFormed.put_split (b := b) ⟨_, status⟩ hp h.ordered h.full hhit
        rfl hne halike hfree hsides hkeep hadm
          (by rw [halike.levels_eq]; exact h₁.room_mono _ (by omega)) hfit isBucket
      rw [halike.levels_eq] at hgood hbad
      refine Exec.Ok.intro () s' hput ⟨fun hins => ?_, fun hnot => hbad fun hrise =>
        hnot (hclean.2 (.inr hrise))⟩
      obtain ⟨D', t', G, hrecords, hkeys, hG, -, hwf⟩ := hgood ((hclean.1 hins).resolve_left hfit)
      exact ⟨_, _, .tree t', G, hcontents, hrecords, hkeys, hG, hwf⟩

theorem WellFormed.put_insert {t : Shape}
    (h : WellFormed Γ (b + t.putRoom Γ.P Γ.env.comparator key value) t O s)
    (hadm : Admissible Γ.P key value) (habsent : find key t.contents = none) (isBucket : Bool) :
    Exec.Ok (BTree.put Γ.env key value isBucket) s fun _ s' =>
      (t.InsertsCleanly Γ.P Γ.env.comparator key value →
        ∃ (A B : List (Bytes × Bytes × Bool)) (t' : Shape)
        (G : Multiset Obj), t.contents = A ++ B ∧ t'.contents = A ++ (key, value, isBucket) :: B ∧
          JunkOnly G ∧ WellFormed Γ b t' (G + O) s') ∧
      (¬ t.InsertsCleanly Γ.P Γ.env.comparator key value → s'.SharesChild) := by
  refine (h.put_insert_keys hadm habsent isBucket).imp fun _ s' hput => ⟨fun hclean => ?_, hput.2⟩
  obtain ⟨A, B, t', G, hA, hB, -, hG, hwf⟩ := hput.1 hclean
  exact ⟨A, B, t', G, hA, hB, hG, hwf⟩

end Insertion

end AtomKV
