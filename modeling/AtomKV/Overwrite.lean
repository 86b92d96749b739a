import AtomKV.LeafUpdate
import AtomKV.Put

/-!
# Overwriting

`BTree::Put` of a key that is there already. `LeafNode::Update` takes the old record out, asks for
space for the new one, and puts the old record back when there is none; the caller does not look at
its result. The space of an overflow stub that was taken out is still counted by a compaction,
which then fails.
-/

set_option autoImplicit false

namespace AtomKV

/-- The leaf that `BTree::Put` finds for the key grants the request for the new value. -/
def BTree.OverwriteFits (env : Env) (key value : Bytes) (s : TxState) : Prop :=
  ∃ pgid slotId rest status n slot,
    BTree.lowerBound env key s = (.ok ⟨(pgid, slotId) :: rest, status⟩, s) ∧
      s.pager.pages pgid = .node n ∧ n.slots[slotId]? = some slot ∧
      n.UpdateFits env.pageSize slot key value

/-- Pages that overwriting a record can take: a copy of every page on the path, and the
record's own. -/
def Shape.overwriteRoom (P : Nat) (key value : Bytes) : Shape → ℕ
  | .empty => 0
  | @Shape.tree D _ => D + 1 + recordPages P key value

section Tree

variable {Γ : Scope} {b : ℕ} {O : Multiset Obj} {s : TxState} {key value old : Bytes}
  {isBucket : Bool}

/-- The order does not depend on values. -/
theorem pairwise_value {cmp : Bytes → Bytes → Ordering} {X Y : List Item} {v : Bytes} {c : Bool}
    (v' : Bytes) (c' : Bool) (h : (X ++ .record (key, v, c) :: Y).Pairwise (Item.Below cmp)) :
    (X ++ .record (key, v', c') :: Y).Pairwise (Item.Below cmp) := by
  obtain ⟨p₁, p₂, p₃⟩ := List.pairwise_append.1 h
  obtain ⟨hd, p₄⟩ := List.pairwise_cons.1 p₂
  refine List.pairwise_append.2 ⟨p₁, List.pairwise_cons.2 ⟨fun y hy => ?_, p₄⟩, fun x hx y hy => ?_⟩
  · have := hd y hy
    cases y <;> exact this
  · rcases List.mem_cons.1 hy with rfl | hy
    · have := p₃ x hx _ List.mem_cons_self
      cases x <;> exact this
    · exact p₃ x hx y (List.mem_cons_of_mem _ hy)

/-- **`BTree::Put` of a key that is there.** The overflow pages of the old record are left over. -/
theorem WellFormed.put_overwrite_keys {t : Shape}
    (h : WellFormed Γ (b + t.overwriteRoom Γ.P key value) t O s)
    (hadm : Admissible Γ.P key value) (hfind : find key t.contents = some (old, isBucket)) :
    (BTree.OverwriteFits Γ.env key value s →
      Exec.Ok (BTree.put Γ.env key value isBucket) s fun _ s' =>
        ∃ (A B : List (Bytes × Bytes × Bool)) (t' : Shape) (run : Nat),
          t.contents = A ++ (key, old, isBucket) :: B ∧
          t'.contents = A ++ (key, value, isBucket) :: B ∧
            (∀ d ∈ A, d.1 ≠ key) ∧ (∀ x ∈ t'.flat, t.HasKey x.key) ∧
              WellFormed Γ b t' (recordsOf Γ.P [⟨key, old, isBucket, run⟩] + O) s') ∧
    (¬ BTree.OverwriteFits Γ.env key value s →
      (∃ err s', BTree.put Γ.env key value isBucket s = (.error err, s')) ∨
        old ≠ value ∧ Exec.Ok (BTree.put Γ.env key value isBucket) s fun _ s' =>
          ∃ (t' : Shape) (O' : Multiset Obj), t'.contents = t.contents ∧
            WellFormed Γ b t' O' s') := by
  cases t with
  | empty => cases hfind
  | @tree D t =>
    obtain ⟨p, status, hp, hstatus, hlower⟩ := h.own.treeLowerBound h.ordered h.full key
    obtain ⟨e, hhit, rfl, rfl⟩ : ∃ e, p.hit = some e ∧ e.value = old ∧ e.isBucket = isBucket := by
      have hmap : find key (Shape.tree t).contents = p.hit.map fun e => (e.value, e.isBucket) :=
        hp.find_eq
      rw [hfind] at hmap
      obtain ⟨e, he, heq⟩ := Option.map_eq_some_iff.1 hmap.symm
      exact ⟨e, he, congrArg Prod.fst heq, congrArg Prod.snd heq⟩
    obtain rfl : e.key = key := hp.hit_key e hhit
    obtain rfl : status = .kEq := hstatus.2 (by rw [hhit]; rfl)
    have hentries : p.entries = p.left ++ e :: p.right := by
      unfold Place.entries
      rw [hhit]
      rfl
    have hown : Own Γ (b + recordPages Γ.P e.key value + (D + 1)) p.tree.pgid
        (p.tree.objs + O) s := by
      rw [hp.tree_eq]
      refine h.own.room_mono _ ?_
      show _ ≤ b + (D + 1 + recordPages Γ.P e.key value)
      omega
    obtain ⟨iter, s₁, hcopy, c, pgid, txid, rfl, hcopied, hfree, hsides,
        hkeep, h₁, -, n, hn, hn₁⟩ :=
      Own.copyAllPagesByPath p .kEq hown (by rw [hp.tree_eq]; exact h.safe)
    have halike := hcopied.alike
    rw [hentries] at h₁
    obtain ⟨n', hrep, -, hn', -⟩ := h₁.read_node
    obtain rfl := Page.node.inj (hn₁.symm.trans hn')
    obtain ⟨l₁, slot, l₂, hs⟩ := hrep.leaf_slots
    have hslot : n.slots[p.left.length]? = some slot := by
      rw [show n.slots = l₁ ++ slot :: l₂ from hs.slots, ← hs.length]
      simp
    have hfits : BTree.OverwriteFits Γ.env e.key value s ↔ n.UpdateFits Γ.P slot e.key value := by
      constructor
      · rintro ⟨pgid', slotId, rest, status', m, slot', hlower', hm, hslot', hfits⟩
        rw [hlower] at hlower'
        have heq := Except.ok.inj (Prod.mk.inj hlower').1
        have hfront := (List.cons.inj (congrArg BTreeIterator.stack heq)).1
        obtain ⟨rfl, rfl⟩ := Prod.mk.inj hfront
        obtain rfl := Page.node.inj (hn.symm.trans hm)
        obtain rfl := Option.some.inj (hslot.symm.trans hslot')
        exact hfits
      · exact fun hfits => ⟨_, _, _, _, n, slot, hlower, hn, hslot, hfits⟩
    have hctx : p.ctx.Full := by
      have hfull : t.RootFull := h.full
      rw [← hp.tree_eq] at hfull
      exact p.ctx.full_of_plug hfull
    have hflat : ∀ e' : Entry, (c.plug (.leaf pgid txid (p.left ++ e' :: p.right))).flat =
        (p.ctx.before ++ recordItems p.left) ++ .record e'.data ::
          (recordItems p.right ++ p.ctx.after) := by
      intro e'
      rw [Ctx.flat_plug, halike.before_eq, halike.after_eq, Tree.flat_leaf,
        recordItems_append, recordItems_cons]
      simp only [List.append_assoc, List.cons_append]
    have hcontents : (Shape.tree t).contents = records (p.ctx.before ++ recordItems p.left) ++
        (e.key, e.value, e.isBucket) :: records (recordItems p.right ++ p.ctx.after) := by
      have := hp.contents_eq
      rw [hhit] at this
      exact this
    have hord : ∀ e' : Entry, e'.key = e.key →
        (c.plug (.leaf pgid txid (p.left ++ e' :: p.right))).Ordered Γ.env.comparator := by
      intro e' hkey
      have hord : t.flat.Pairwise _ := h.ordered
      rw [← hp.tree_eq, p.flat_tree, hhit] at hord
      unfold Tree.Ordered
      rw [hflat]
      have := pairwise_value e'.value e'.isBucket
        (show ((p.ctx.before ++ recordItems p.left) ++ Item.record (e.key, e.value, e.isBucket) ::
          (recordItems p.right ++ p.ctx.after)).Pairwise _ from hord)
      rw [← hkey] at this
      exact this
    have hmem : Obj.node pgid (.leaf txid (p.left ++ e :: p.right)) ∈
        .node pgid (.leaf txid (p.left ++ e :: p.right)) ::ₘ (c.objs pgid + O) :=
          Multiset.mem_cons_self _ _
    have hflag : BTreeIterator.isBucket ⟨(pgid, p.left.length) :: c.stack, .kEq⟩ s₁ =
        (.ok e.isBucket, s₁) := by
      have hleaf : BTreeIterator.getLeafNode ⟨(pgid, p.left.length) :: c.stack, .kEq⟩ s₁ =
          (.ok (pgid, p.left.length), s₁) := rfl
      unfold BTreeIterator.isBucket
      rw [Exec.bind_of_ok hleaf]
      exact h₁.isBucket hmem (by simp)
    have hrun : BTree.put Γ.env e.key value e.isBucket s = (do
        let _ ← LeafNode.update Γ.env pgid p.left.length e.key value
        LeafNode.setIsBucket pgid p.left.length e.isBucket : TxM Unit) s₁ := by
      unfold BTree.put
      rw [Exec.bind_of_ok hlower, Exec.bind_of_ok hcopy]
      unfold BTree.putAt assert
      simp only [Bool.not_false, Bool.true_and, decide_true, if_true]
      rw [Exec.bind_of_ok hflag, Exec.require_bind rfl]
    refine ⟨fun hf => ?_, fun hf => ?_⟩
    · obtain ⟨_, s₂, hupdate, rfl, ⟨run, h₂⟩, -⟩ :=
        h₁.leafUpdate_ok hkeep hn₁ hslot hadm (hfits.1 hf)
      have h₂' : Own Γ
          _ _ (.node pgid (.leaf txid (p.left ++ ⟨e.key, value, e.isBucket, run⟩ :: p.right)) ::ₘ
          (c.objs pgid + (recordsOf Γ.P [e] + O))) s₂ := h₂.perm (by
        congr 1
        abel)
      obtain ⟨s₃, hset, h₃, -⟩ := h₂'.leafSetIsBucket hkeep e.isBucket
      have hlow : ∀ d ∈ records (p.ctx.before ++ recordItems p.left), d.1 ≠ e.key := by
        have := Γ.ok.trans
        intro d hd hkey
        have hlt := hp.ne_of_low hd
        rw [hkey] at hlt
        exact Compare.irrefl e.key hlt
      refine Exec.Ok.intro () s₃ ?_
        ⟨_, _, .tree (c.plug (.leaf pgid txid _)), e.run, hcontents, ?_, hlow, ?_,
        WellFormed.of_leaf h₃ (hord _ rfl) (halike.full_iff.2 hctx) (by simp) hfree hsides hkeep⟩
      · rw [hrun, Exec.bind_of_ok hupdate]
        exact hset
      · show records (c.plug _).flat = _
        rw [hflat, records_append, records_cons_record]
        rfl
      · intro x hx
        have hx : x ∈ (c.plug _).flat := hx
        have hold : t.flat = (p.ctx.before ++ recordItems p.left) ++ .record e.data ::
            (recordItems p.right ++ p.ctx.after) := by
          rw [← hp.tree_eq, p.flat_tree, hhit]
          rfl
        rw [hflat, List.mem_append, List.mem_cons] at hx
        show ∃ y ∈ t.flat, y.key = x.key
        rw [hold]
        rcases hx with hx | rfl | hx
        · exact ⟨x, List.mem_append_left _ hx, rfl⟩
        · exact ⟨.record e.data, by simp, rfl⟩
        · exact ⟨x, List.mem_append_right _ (List.mem_cons_of_mem _ hx), rfl⟩
    · by_cases hfit : Fits Γ.P (p.left ++ p.right) e.key value
      · obtain ⟨s₂, -, herr, -⟩ :=
          h₁.leafUpdate_error hkeep hn₁ hslot hfit fun hnode => hf (hfits.2 hnode)
        refine .inl ⟨.assertion, s₂, ?_⟩
        rw [hrun, Exec.bind_of_error herr]
      · -- the old record is back in its place, and nothing tells the caller
        have hne : e.value ≠ value := by
          rintro rfl
          refine hfit ?_
          have hfill := h₁.fill_le_of_mem hmem
          have hstub : e.stub Γ.P = recordStub Γ.P e.key e.value := rfl
          rw [show NodeView.entries (.leaf txid (p.left ++ e :: p.right)) = p.left ++ e :: p.right
            from rfl, fill_append, fill_cons] at hfill
          unfold Fits
          rw [fill_append]
          omega
        obtain ⟨s₃, hset, h₃, -⟩ := h₁.leafSetIsBucket hkeep e.isBucket
        refine .inr ⟨hne, Exec.Ok.intro () s₃ ?_ ⟨.tree (c.plug (.leaf pgid txid _)), O, ?_,
          WellFormed.of_leaf (h₃.room_mono _ (Nat.le_add_right _ _)) (hord _ rfl)
            (halike.full_iff.2 hctx) (by simp) hfree hsides hkeep⟩⟩
        · rw [hrun, Exec.bind_of_ok (h₁.leafUpdate_refused hkeep hfit)]
          exact hset
        · rw [hcontents]
          show records (c.plug _).flat = _
          rw [hflat, records_append, records_cons_record]
          rfl

theorem WellFormed.put_overwrite {t : Shape}
    (h : WellFormed Γ (b + t.overwriteRoom Γ.P key value) t O s)
    (hadm : Admissible Γ.P key value) (hfind : find key t.contents = some (old, isBucket)) :
    (BTree.OverwriteFits Γ.env key value s →
      Exec.Ok (BTree.put Γ.env key value isBucket) s fun _ s' =>
        ∃ (A B : List (Bytes × Bytes × Bool)) (t' : Shape) (O' : Multiset Obj),
          t.contents = A ++ (key, old, isBucket) :: B ∧
          t'.contents = A ++ (key, value, isBucket) :: B ∧
            (∀ d ∈ A, d.1 ≠ key) ∧ WellFormed Γ b t' O' s') ∧
    (¬ BTree.OverwriteFits Γ.env key value s →
      (∃ err s', BTree.put Γ.env key value isBucket s = (.error err, s')) ∨
        old ≠ value ∧ Exec.Ok (BTree.put Γ.env key value isBucket) s fun _ s' =>
          ∃ (t' : Shape) (O' : Multiset Obj), t'.contents = t.contents ∧
            WellFormed Γ b t' O' s') := by
  obtain ⟨hyes, hno⟩ := h.put_overwrite_keys hadm hfind
  refine ⟨fun hfits => (hyes hfits).imp fun _ s' hput => ?_, hno⟩
  obtain ⟨A, B, t', run, hold, hnew, hA, -, hwf⟩ := hput
  exact ⟨A, B, t', _, hold, hnew, hA, hwf⟩

end Tree

end AtomKV
