import AtomKV.Put

/-!
# The slots of the leaves

The slots of all leaves from left to right, read off the pages from the root down. The pages need
not hold a well-formed tree: an operation that an exception has ended may leave any slots in a leaf.
What the pages show says which records a tree can have in them (`WellFormed.leaf_holds`).
-/

set_option autoImplicit false

namespace AtomKV

/-- The slots of the leaves below a page, read at most `fuel` levels deep. -/
def TxState.leafSlots (s : TxState) : (fuel : ℕ) → Nat → List Slot
  | 0, _ => []
  | fuel + 1, p =>
    match s.pager.pages p with
    | .raw _ => []
    | .node n => if n.isBranch then n.kids.flatMap (TxState.leafSlots s fuel) else n.slots

/-- The slots are those of the records. -/
structure Holds (P : Nat) (slots : List Slot) (es : List Entry) : Prop where
  heads : slots.map Slot.head = es.map (Entry.head P)
  parts : slots.map Slot.leafPart = es.map Entry.leafPart

namespace Holds

variable {P : Nat} {slots slots₁ slots₂ : List Slot} {es es₁ es₂ : List Entry}

theorem nil : Holds P [] [] := ⟨rfl, rfl⟩

theorem length_eq (h : Holds P slots es) : slots.length = es.length := by
  simpa using congrArg List.length h.heads

theorem append (h₁ : Holds P slots₁ es₁) (h₂ : Holds P slots₂ es₂) :
    Holds P (slots₁ ++ slots₂) (es₁ ++ es₂) :=
  ⟨by rw [List.map_append, List.map_append, h₁.heads, h₂.heads],
    by rw [List.map_append, List.map_append, h₁.parts, h₂.parts]⟩

/-- The records fall apart where the slots do. -/
theorem split (h : Holds P (slots₁ ++ slots₂) es) :
    ∃ es₁ es₂, es = es₁ ++ es₂ ∧ Holds P slots₁ es₁ ∧ Holds P slots₂ es₂ := by
  obtain ⟨heads, parts⟩ := h
  rw [List.map_append] at heads parts
  obtain ⟨es₁, es₂, rfl, h1, h2⟩ := List.map_eq_append_iff.1 heads.symm
  have hlen : (slots₁.map Slot.leafPart).length = (es₁.map Entry.leafPart).length := by
    simpa using (congrArg List.length h1).symm
  rw [List.map_append] at parts
  obtain ⟨p1, p2⟩ := List.append_inj parts hlen
  exact ⟨es₁, es₂, rfl, ⟨h1.symm, p1⟩, ⟨h2.symm, p2⟩⟩

/-- The space of the slots is the space of the records. -/
theorem space_eq (h : Holds P slots es) : Node.slotsSpace true slots = entriesSpace P es := by
  refine slotsSpace_eq h.heads (fun _ => ?_) fun hf => by cases hf
  have := congrArg (List.map Prod.fst) h.parts
  simpa [List.map_map, Function.comp_def, Slot.leafPart, Entry.leafPart] using this

end Holds

/-! ## The records of a woven sequence -/

theorem records_weavePre (ks : List (List Item)) (es : List Entry) (h : ks.length = es.length) :
    records (weavePre ks (separatorItems es)) = ks.flatMap records := by
  induction ks generalizing es with
  | nil =>
    obtain rfl : es = [] := List.length_eq_zero_iff.1 h.symm
    rfl
  | cons k ks ih =>
    cases es with
    | nil => cases h
    | cons e es =>
      rw [separatorItems_cons, weavePre_cons, records_append, records_cons_separator,
        ih es (Nat.succ.inj h), List.flatMap_cons]

theorem records_weavePost (es : List Entry) (ks : List (List Item)) (h : ks.length = es.length) :
    records (weavePost (separatorItems es) ks) = ks.flatMap records := by
  induction ks generalizing es with
  | nil =>
    obtain rfl : es = [] := List.length_eq_zero_iff.1 h.symm
    rfl
  | cons k ks ih =>
    cases es with
    | nil => cases h
    | cons e es =>
      rw [separatorItems_cons, weavePost_cons, List.cons_append, records_cons_separator,
        records_append, ih es (Nat.succ.inj h), List.flatMap_cons]

theorem records_weave (ks : List (List Item)) (es : List Entry) (h : ks.length = es.length + 1) :
    records (weave ks (separatorItems es)) = ks.flatMap records := by
  cases ks with
  | nil => cases h
  | cons k ks =>
    show records (k ++ weavePost (separatorItems es) ks) = _
    rw [records_append, records_weavePost es ks (Nat.succ.inj h), List.flatMap_cons]

/-! ## What the pages of a tree show -/

section Tree

variable {env : Env} {O : Multiset Obj} {s : TxState}

theorem leafSlots_leaf {q t : Nat} {es : List Entry} (h : Resident env O s)
    (hm : Obj.node q (.leaf t es) ∈ O) (fuel : ℕ) :
      Holds env.pageSize (s.leafSlots (fuel + 1) q) es := by
  obtain ⟨n, hrep, -, hpage, -⟩ := h.read hm
  have hbranch : n.isBranch = false := hrep.isBranch_eq
  have hslots : s.leafSlots (fuel + 1) q = n.slots := by
    unfold TxState.leafSlots
    rw [hpage]
    simp only [hbranch, Bool.false_eq_true, if_false]
  rw [hslots]
  exact ⟨hrep.heads, hrep.body.2⟩

theorem leafSlots_branch {q t : Nat} {es : List Entry} {kids : List Nat} (h : Resident env O s)
    (hm : Obj.node q (.branch t es kids) ∈ O) (fuel : ℕ) :
    s.leafSlots (fuel + 1) q = kids.flatMap (s.leafSlots fuel) := by
  obtain ⟨n, hrep, -, hpage, -⟩ := h.read hm
  have hbranch : n.isBranch = true := hrep.isBranch_eq
  have hkids : n.kids = kids := hrep.body.2.2
  conv_lhs => unfold TxState.leafSlots
  rw [hpage]
  simp only [hbranch, if_true, hkids]

/-- The slots of neighbouring subtrees. -/
theorem leafSlots_kids (P : Nat) {d fuel : ℕ} (ks : List (Tree d))
    (h : ∀ k ∈ ks, ∃ es, Holds P (s.leafSlots fuel k.pgid) es ∧ es.map Entry.data = k.contents) :
    ∃ es, Holds P ((ks.map Tree.pgid).flatMap (s.leafSlots fuel)) es ∧
      es.map Entry.data = (ks.map Tree.flat).flatMap records := by
  induction ks with
  | nil => exact ⟨[], Holds.nil, rfl⟩
  | cons k ks ih =>
    obtain ⟨es₁, h₁, hdata₁⟩ := h k List.mem_cons_self
    obtain ⟨es₂, h₂, hdata₂⟩ := ih fun k' hk' => h k' (List.mem_cons_of_mem _ hk')
    refine ⟨es₁ ++ es₂, ?_, ?_⟩
    · rw [List.map_cons, List.flatMap_cons]
      exact h₁.append h₂
    · rw [List.map_append, List.map_cons, List.flatMap_cons, hdata₁, hdata₂]
      rfl

/-- The slots of a tree's leaves hold its records. -/
theorem Tree.leafSlots {d : ℕ} (t : Tree d) (fuel : ℕ) (h : Resident env t.objs s)
    (hfuel : d < fuel) :
    ∃ es, Holds env.pageSize (s.leafSlots fuel t.pgid) es ∧ es.map Entry.data = t.contents := by
  induction d generalizing fuel with
  | zero =>
    obtain ⟨p, txid, es, rfl⟩ := t.exists_leaf
    obtain ⟨fuel, rfl⟩ := Nat.exists_eq_succ_of_ne_zero (Nat.ne_of_gt hfuel)
    exact ⟨es, leafSlots_leaf h (Multiset.mem_singleton_self _) fuel, (records_recordItems es).symm⟩
  | succ d ih =>
    obtain ⟨p, txid, es, kids, len, rfl⟩ := t.exists_branch
    obtain ⟨fuel, rfl⟩ :=
      Nat.exists_eq_succ_of_ne_zero (Nat.ne_of_gt (Nat.lt_of_le_of_lt (Nat.zero_le _) hfuel))
    obtain ⟨es', hholds, hdata⟩ := leafSlots_kids env.pageSize kids fun k hk => ih k fuel
      (h.mono fun o ho => Multiset.mem_cons_of_mem (Tree.mem_sum_objs.2 ⟨k, hk, ho⟩))
        (Nat.lt_of_succ_lt_succ hfuel)
    refine ⟨es', ?_, hdata.trans ?_⟩
    · have hslots : s.leafSlots (fuel + 1) p = (kids.map Tree.pgid).flatMap (s.leafSlots fuel) :=
        leafSlots_branch h (Multiset.mem_cons_self _ _) fuel
      show Holds env.pageSize (s.leafSlots (fuel + 1) p) es'
      rw [hslots]
      exact hholds
    · show _ = records (weave (kids.map Tree.flat) (separatorItems es))
      rw [records_weave _ _ (by rw [List.length_map, len])]

/-- The slots around the hole of a path: as many on each side as the path has records there. -/
theorem Ctx.leafSlots {d D : ℕ} (c : Ctx d D) (q : Nat) (fuel : ℕ) (h : Resident env (c.objs q) s)
    (hfuel : D < fuel) :
    ∃ A B fuel', s.leafSlots fuel (c.rootId q) = A ++ s.leafSlots fuel' q ++ B ∧ d < fuel' ∧
      A.length = (records c.before).length ∧ B.length = (records c.after).length := by
  induction c generalizing q fuel with
  | top => exact ⟨[], [], fuel, by simp [Ctx.rootId], hfuel, rfl, rfl⟩
  | @under d D f c ih =>
    obtain ⟨A, B, fuel', hslots, hlt, hA, hB⟩ := ih f.pgid fuel (h.mono fun o ho =>
      Multiset.mem_cons_of_mem (Multiset.mem_add.2 (.inr ho))) hfuel
    obtain ⟨fuel', rfl⟩ :=
      Nat.exists_eq_succ_of_ne_zero (Nat.ne_of_gt (Nat.lt_of_le_of_lt (Nat.zero_le _) hlt))
    have hside : ∀ k ∈ f.ksL ++ f.ksR, ∃ es, Holds env.pageSize (s.leafSlots fuel' k.pgid) es ∧
        es.map Entry.data = k.contents := by
      intro k hk
      refine k.leafSlots fuel'
        (h.mono fun o ho => Multiset.mem_cons_of_mem (Multiset.mem_add.2 (.inl ?_)))
        (Nat.lt_of_succ_lt_succ hlt)
      rcases List.mem_append.1 hk with hk | hk
      · exact Multiset.mem_add.2 (.inl (Tree.mem_sum_objs.2 ⟨k, hk, ho⟩))
      · exact Multiset.mem_add.2 (.inr (Tree.mem_sum_objs.2 ⟨k, hk, ho⟩))
    obtain ⟨esL, hL, hdataL⟩ := leafSlots_kids env.pageSize f.ksL fun k hk =>
      hside k (List.mem_append_left _ hk)
    obtain ⟨esR, hR, hdataR⟩ := leafSlots_kids env.pageSize f.ksR fun k hk =>
      hside k (List.mem_append_right _ hk)
    have hbranch := leafSlots_branch h (Multiset.mem_cons_self _ _) fuel'
    rw [List.flatMap_append, List.flatMap_cons] at hbranch
    refine ⟨A ++ (f.ksL.map Tree.pgid).flatMap (s.leafSlots fuel'),
      (f.ksR.map Tree.pgid).flatMap (s.leafSlots fuel') ++ B,
      fuel', ?_, Nat.lt_of_succ_lt_succ hlt, ?_, ?_⟩
    · show s.leafSlots fuel (c.rootId f.pgid) = _
      rw [hslots, hbranch]
      simp only [List.append_assoc]
    · rw [List.length_append, hA, hL.length_eq, ← List.length_map Entry.data, hdataL, Ctx.before,
        records_append, List.length_append, Frame.before,
          records_weavePre _ _ (by rw [List.length_map, f.lenL])]
    · rw [List.length_append, hB, hR.length_eq, ← List.length_map Entry.data, hdataR, Ctx.after,
        records_append, List.length_append, Frame.after,
          records_weavePost _ _ (by rw [List.length_map, f.lenR])]

end Tree

/-! ## A leaf that was written -/

/-- **What a tree can have in a leaf.** A page has been written at the hole of a path. A tree whose
records around the hole are as many as before has the records that the page's slots say, and the
page's header counts them. -/
theorem WellFormed.leaf_holds {Γ : Scope} {D b b' q : ℕ} {c : Ctx 0 D} {n : Node}
    {R O : Multiset Obj} {es : List Entry} {t : Shape} {s : TxState}
    (hown : Own Γ b (c.rootId q) (.page q (.node n) ::ₘ (c.objs q + R)) s)
    (hleaf : n.isLeaf = true) (hwf : WellFormed Γ b' t O s)
    (hcontents : t.contents = records c.before ++ (es.map Entry.data ++ records c.after)) :
    Node.Sized Γ.P n ∧ ∃ es', es'.map Entry.data = es.map Entry.data ∧ Holds Γ.P n.slots es' := by
  have hpage : s.pager.pages q = .node n := hown.rep _ (Multiset.mem_cons_self _ _)
  have hpath : Own Γ b (c.rootId q) (c.objs q + (.page q (.node n) ::ₘ R)) s :=
    hown.perm (by rw [Multiset.add_cons])
  have hne : q ≠ kPageInvalidId := by
    have h1 := (hown.page_lt (Own.page_pos q (.node n))).2
    have h2 := hown.room
    unfold kPageMaxCount at h2
    unfold kPageInvalidId
    omega
  -- The page hangs on the path, and the tree has the same root: it is a node of the tree too.
  obtain ⟨v, hv⟩ := (hwf.of_reaches (Own.reaches_hole c q hpath)).resolve_left hne
  obtain ⟨n', hrep, -, hpage', -⟩ := hwf.own.read_of_mem (Multiset.mem_add.2 (.inl hv))
  obtain rfl : n = n' := Page.node.inj (hpage.symm.trans hpage')
  refine ⟨hrep.sized, ?_⟩
  cases t with
  | empty => exact absurd hv (Multiset.notMem_zero _)
  | @tree D' u =>
    have hroot : c.rootId q = u.pgid := hown.root.symm.trans hwf.own.root
    -- All slots below the root, once as the tree has them and once as the path and the page have
    -- them.
    obtain ⟨all, hall, hdata⟩ := u.leafSlots (max D D' + 1)
      (hwf.own.resident.mono fun _ ho => Multiset.mem_add.2 (.inl ho))
        (Nat.lt_succ_of_le (Nat.le_max_right _ _))
    obtain ⟨A, B, fuel, hslots, hlt, hA, hB⟩ := c.leafSlots q (max D D' + 1)
      (hpath.resident.mono fun _ ho => Multiset.mem_add.2 (.inl ho))
        (Nat.lt_succ_of_le (Nat.le_max_left _ _))
    have hq : s.leafSlots fuel q = n.slots := by
      obtain ⟨fuel, rfl⟩ := Nat.exists_eq_succ_of_ne_zero (Nat.ne_of_gt hlt)
      have hbranch : n.isBranch = false := by
        have htype : n.type = .kLeaf := by simpa [Node.isLeaf] using hleaf
        simp [Node.isBranch, htype]
      unfold TxState.leafSlots
      rw [hpage]
      simp only [hbranch, Bool.false_eq_true, if_false]
    rw [← hroot, hslots, hq] at hall
    obtain ⟨front, back, rfl, hfront, hback⟩ := hall.split
    obtain ⟨left, here, rfl, hleft, hhere⟩ := hfront.split
    refine ⟨here, ?_, hhere⟩
    -- The path has as many slots on either side, so what is left in the middle is the page.
    have hsum : left.map Entry.data ++ (here.map Entry.data ++ back.map Entry.data) =
        records c.before ++ (es.map Entry.data ++ records c.after) := by
      rw [← hcontents, ← List.append_assoc, ← List.map_append, ← List.map_append]
      exact hdata
    obtain ⟨-, hrest⟩ := List.append_inj hsum (by rw [List.length_map, ← hleft.length_eq, hA])
    exact (List.append_inj' hrest (by rw [List.length_map, ← hback.length_eq, hB])).1

end AtomKV
