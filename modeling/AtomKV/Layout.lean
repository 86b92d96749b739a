import AtomKV.WellFormed

/-!
# Laying out a tree

A file that holds a given tree. `NodeView.image` is a node that says `v`, with its records stored in
the page; `layout` puts the nodes of a tree into a file without free pages. A tree whose nodes fit
into their pages and whose pages are the file's is well-formed there.
-/

set_option autoImplicit false

namespace AtomKV

/-! ## Nodes -/

/-- The slots of a node. -/
def NodeView.slots (P : Nat) : List Entry → Option (List Nat) → List Slot
  | es, none => es.map fun e => ⟨0, e.record P, e.key.length, e.isBucket, e.value.length⟩
  | es, some kids => List.zipWith (fun e k => ⟨0, e.record P, e.key.length, false, k⟩) es kids

/-- A node that says `v`, its records one below the other. -/
def NodeView.image (P : Nat) (v : NodeView) : Node where
  lastModifiedTxid := v.txid
  type := if v.kids.isSome then .kBranch else .kLeaf
  spaceUsed := entriesSpace P v.entries
  dataOffset := P - entriesSpace P v.entries
  tailChild := (v.kids.getD []).getLastD 0
  slots := (Node.copyRecordRange v.kids.isNone (NodeView.slots P v.entries v.kids) P 0).1

/-- The records of `v` fit into a page, and a branch has one child more than keys. -/
structure NodeView.Lays (P : Nat) (v : NodeView) : Prop where
  fill : fill P v.entries ≤ P - 18
  ok : ∀ e ∈ v.entries, e.Ok P
  inline : ∀ e ∈ v.entries, e.size ≤ Node.maxInline P
  kids : ∀ ks ∈ v.kids, ks.length = v.entries.length + 1 ∧ ∀ e ∈ v.entries, e.value = []

instance (P : Nat) (v : NodeView) : Decidable (v.Lays P) :=
  decidable_of_iff (AtomKV.fill P v.entries ≤ P - 18 ∧ (∀ e ∈ v.entries, e.key.length ≤ P ∧
      e.key.length ≤ kKeyMaxSize ∧ e.value.length ≤ kValueMaxSize) ∧
      (∀ e ∈ v.entries, e.size ≤ Node.maxInline P) ∧
      ∀ ks ∈ v.kids.toList, ks.length = v.entries.length + 1 ∧ ∀ e ∈ v.entries, e.value = [])
    ⟨fun ⟨h1, h2, h3, h4⟩ => ⟨h1, fun e he => ⟨(h2 e he).1, (h2 e he).2.1, (h2 e he).2.2⟩, h3,
      fun ks hk => h4 ks (Option.mem_toList.2 hk)⟩,
      fun ⟨h1, h2, h3, h4⟩ => ⟨h1, fun e he => ⟨(h2 e he).1, (h2 e he).2, (h2 e he).3⟩, h3,
        fun ks hk => h4 ks (Option.mem_toList.1 hk)⟩⟩

section Image

variable {P : Nat} {v : NodeView}

theorem NodeView.heads_slots (es : List Entry) (kids : Option (List Nat))
    (h : ∀ ks ∈ kids, ks.length = es.length + 1) :
    (NodeView.slots P es kids).map Slot.head = es.map (Entry.head P) := by
  cases kids with
  | none =>
    unfold NodeView.slots
    rw [List.map_map]
    rfl
  | some ks =>
    have hlen := h ks rfl
    unfold NodeView.slots
    rw [List.map_zipWith]
    refine List.ext_getElem (by simp; omega) fun i h₁ h₂ => ?_
    simp [Slot.head, Entry.head]

theorem NodeView.words_slots (h : v.Lays P) :
    (v.kids = none → (NodeView.slots P v.entries v.kids).map Slot.leafPart =
      v.entries.map Entry.leafPart) ∧ ∀ ks, v.kids = some ks →
      (NodeView.slots P v.entries v.kids).map Slot.word ++ [ks.getLastD 0] = ks := by
  obtain ⟨txid, es, kids⟩ := v
  refine ⟨fun hk => ?_, fun ks hk => ?_⟩
  · cases hk
    show (List.map _ es).map Slot.leafPart = _
    rw [List.map_map]
    rfl
  · cases hk
    obtain ⟨hlen, -⟩ := h.kids ks rfl
    obtain ⟨ks, x, rfl⟩ := (List.eq_nil_or_concat' ks).resolve_left (by
      rintro rfl
      simp at hlen)
    have hlen' : ks.length = es.length := by simpa using hlen
    show (List.zipWith _ es (ks ++ [x])).map Slot.word ++ [(ks ++ [x]).getLastD 0] = ks ++ [x]
    rw [List.map_zipWith]
    have hlast : (ks ++ [x]).getLastD 0 = x := by simp
    rw [hlast]
    congr 1
    refine List.ext_getElem (by simp; omega) fun i h₁ h₂ => ?_
    simp [List.getElem_append_left h₂]

theorem NodeView.space_slots (h : v.Lays P) :
    Node.slotsSpace v.kids.isNone (NodeView.slots P v.entries v.kids) =
      entriesSpace P v.entries := by
  refine slotsSpace_eq (NodeView.heads_slots v.entries v.kids fun ks hk => (h.kids ks hk).1)
    (fun hl => ?_) fun hl => ?_
  · have hk : v.kids = none := Option.isNone_iff_eq_none.1 hl
    have := congrArg (List.map Prod.fst) ((NodeView.words_slots h).1 hk)
    simpa [List.map_map, Function.comp_def, Slot.leafPart, Entry.leafPart] using this
  · cases hk : v.kids with
    | none => simp [hk] at hl
    | some ks => exact (h.kids ks hk).2

theorem NodeView.isLeaf_image (P : Nat) (v : NodeView) : (v.image P).isLeaf = v.kids.isNone := by
  obtain ⟨txid, es, kids⟩ := v
  cases kids <;> rfl

/-- The slots of the image differ in the places of their records only. -/
theorem NodeView.slots_image (hP : PageSizeOk P) (h : v.Lays P) :
    ((v.image P).slots.map fun slot => { slot with recordOffset := 0 }) =
        ((NodeView.slots P v.entries v.kids).map fun slot => { slot with recordOffset := 0 }) ∧
      Spans.Laid P (v.image P).dataOffset (Node.spans v.kids.isNone (v.image P).slots) := by
  have hspace := NodeView.space_slots h
  have hfill := h.fill
  have hmin := hP.min
  have hmax := hP.lt_max
  unfold AtomKV.fill at hfill
  obtain ⟨slots', hcopy, hmap, hlaid⟩ := Node.copyRecordRange_eq v.kids.isNone
    (NodeView.slots P v.entries v.kids) P 0 (by omega) (by omega) (by omega)
  have hslots : (v.image P).slots = slots' := congrArg Prod.fst hcopy
  refine ⟨by rw [hslots, hmap], ?_⟩
  rw [Int.toNat_natCast, hspace] at hlaid
  rw [hslots]
  exact hlaid

/-- The image of `v` says `v`. -/
theorem NodeView.rep_image (hP : PageSizeOk P) (h : v.Lays P) : NodeRep P v (v.image P) := by
  obtain ⟨hslots, hlaid⟩ := NodeView.slots_image hP h
  have hheads : (v.image P).slots.map Slot.head = v.entries.map (Entry.head P) :=
    (map_eq_of_bare (fun _ => rfl) hslots).trans
      (NodeView.heads_slots v.entries v.kids fun ks hk => (h.kids ks hk).1)
  have hlen : (v.image P).slots.length = v.entries.length := by
    simpa using congrArg List.length hheads
  have hfill := h.fill
  have hmin := hP.min
  have hbytes : (v.image P).slotBytes ≤ P - entriesSpace P v.entries := by
    unfold Node.slotBytes Node.count
    unfold AtomKV.fill at hfill
    omega
  have hsum : Node.slotsSpace v.kids.isNone (v.image P).slots = entriesSpace P v.entries := by
    rw [← NodeView.space_slots h]
    unfold Node.slotsSpace
    rw [map_eq_of_bare (fun _ => rfl) hslots]
  refine ⟨⟨⟨?_, ?_, Node.slotBytes_lt hP (by omega)⟩, ?_, ?_⟩, rfl, hheads, h.ok, ?_⟩
  · show ((v.image P).slotBytes : Int) ≤ (P : Int) - entriesSpace P v.entries
    unfold AtomKV.fill at hfill
    omega
  · show (P : Int) - entriesSpace P v.entries + entriesSpace P v.entries ≤ P
    omega
  · rw [NodeView.isLeaf_image, hsum]
    rfl
  · rw [NodeView.isLeaf_image]
    exact hlaid
  · cases hk : v.kids with
    | none =>
      refine ⟨by simp [NodeView.image, hk], ?_⟩
      exact (map_eq_of_bare (fun _ => rfl) hslots).trans ((NodeView.words_slots h).1 hk)
    | some ks =>
      refine ⟨by simp [NodeView.image, hk], (h.kids ks hk).2, ?_⟩
      rw [map_eq_of_bare (fun _ => rfl) hslots, show (v.image P).tailChild = ks.getLastD 0 by
        simp [NodeView.image, hk]]
      exact (NodeView.words_slots h).2 ks hk

end Image

/-! ## Files -/

/-- A transaction that has just begun on a file with the nodes `ns`. -/
def layout (P : Nat) (info : MetaInfo) (root : Nat) (ns : List (Nat × NodeView)) : TxState where
  pager :=
    { pages := fun p =>
        match ns.find? fun n => n.1 = p with
        | some n => .node (n.2.image P)
        | none => .raw []
      freeMap := []
      pendingMap := []
      allocRecords := [] }
  metaStruct := { info with pageCount := ns.length + 2 }
  rootPgid := root

/-- The nodes of the file are the images of the `ns`. -/
theorem node_of_layout {P : Nat} {info : MetaInfo} {root : Nat} {ns : List (Nat × NodeView)}
    {p : Nat} {n : Node} (h : (layout P info root ns).pager.pages p = .node n) :
      ∃ v, (p, v) ∈ ns ∧ n = v.image P := by
  change (match ns.find? fun n => n.1 = p with
    | some n => .node (n.2.image P)
    | none => .raw []) = Page.node n at h
  cases hfind : ns.find? fun n => n.1 = p with
  | none =>
    rw [hfind] at h
    cases h
  | some m =>
    rw [hfind] at h
    have hp : m.1 = p := by simpa using List.find?_some hfind
    refine ⟨m.2, ?_, (Page.node.inj h).symm⟩
    rw [← hp]
    exact List.mem_of_find?_eq_some hfind

/-- The scope of such a transaction. -/
def layoutScope (env : Env) (ok : env.Ok) (info : MetaInfo) (n : ℕ) : Scope where
  env := env
  ok := ok
  txMeta := { info with pageCount := n + 2 }
  keep := fun _ => False
  pages := fun _ => .raw []
  pending := fun _ _ => 0
  drawn := fun _ => 0

def nodeObjs (ns : List (Nat × NodeView)) : Multiset Obj :=
  (ns.map fun n => Obj.node n.1 n.2 : List Obj)

theorem objsCount_nodeObjs {P : Nat} {ns : List (Nat × NodeView)} (h : ∀ n ∈ ns, n.2.Lays P)
    (p : Nat) : objsCount P (nodeObjs ns) p = (ns.map Prod.fst).count p := by
  induction ns with
  | nil => rfl
  | cons n ns ih =>
    have hentries : entriesCount P n.2.entries p = 0 := by
      unfold entriesCount
      refine List.sum_eq_zero fun x hx => ?_
      obtain ⟨e, he, rfl⟩ := List.mem_map.1 hx
      have hsize := (h n List.mem_cons_self).inline e he
      rw [Entry.pages, if_neg (by omega), runCount_zero]
    have hrec := ih fun n hn => h n (List.mem_cons_of_mem _ hn)
    show objsCount P (Obj.node n.1 n.2 ::ₘ nodeObjs ns) p = _
    rw [objsCount_cons, hrec, List.map_cons, List.count_cons]
    show runCount (n.1, 1) p + _ + _ = _
    rw [hentries, runCount_mk]
    by_cases hp : n.1 = p
    · subst hp
      simp
      omega
    · rw [if_neg (by omega), if_neg (by simpa using hp)]
      omega

theorem own_layout {env : Env} {ok : env.Ok} {info : MetaInfo} {root b : Nat}
    {ns : List (Nat × NodeView)} (hlays : ∀ n ∈ ns, n.2.Lays env.pageSize)
    (hpages : (ns.map Prod.fst).Perm (List.range' 2 ns.length))
    (hroom : ns.length + 2 + b ≤ kPageMaxCount) :
    Own (layoutScope env ok info ns.length) b root (nodeObjs ns)
      (layout env.pageSize info root ns) where
  rep o ho := by
    obtain ⟨⟨q, v⟩, hn, rfl⟩ := List.mem_map.1 (Multiset.mem_coe.1 ho)
    have hnodup : (ns.map Prod.fst).Nodup := hpages.nodup_iff.2 List.nodup_range'
    have hfind : ns.find? (fun n => n.1 = q) = some (q, v) := by
      -- The page ids differ, so the first entry under an id is the only one.
      clear hlays hpages hroom ho
      induction ns with
      | nil => cases hn
      | cons m ns ih =>
        rw [List.map_cons, List.nodup_cons] at hnodup
        rcases List.mem_cons.1 hn with rfl | hn
        · simp
        · have hne : m.1 ≠ q := fun he => hnodup.1 (he ▸ List.mem_map_of_mem hn)
          rw [List.find?_cons_of_neg (by simpa using hne)]
          exact ih hn hnodup.2
    refine ⟨v.image env.pageSize, ?_, NodeView.rep_image ok.pageSize (hlays _ hn),
      fun e he hover => ?_⟩
    · show (match ns.find? (fun n => n.1 = q) with | some n => Page.node _ | none => Page.raw []) =
        _
      rw [hfind]
    · have := (hlays _ hn).inline e he
      exact absurd this (Nat.not_le.2 hover)
  count p := by
    rw [show (layoutScope env ok info ns.length).P = env.pageSize from rfl,
      objsCount_nodeObjs hlays, hpages.count_eq]
    show _ + (0 + if ns.length + 2 ≤ p then 1 else 0) + 0 = _
    have hcount : (List.range' 2 ns.length).count p =
        if 2 ≤ p ∧ p < 2 + ns.length then 1 else 0 := by
      split_ifs with h
      · exact List.count_eq_one_of_mem List.nodup_range' (List.mem_range'_1.2 h)
      · exact List.count_eq_zero.2 fun hm => h (List.mem_range'_1.1 hm)
    rw [hcount]
    split_ifs <;> omega
  kept p hp := hp.elim
  pending t p ht := rfl
  drawn p := rfl
  freeIn r hr := absurd hr List.not_mem_nil
  drawnIn r hr := absurd hr List.not_mem_nil
  pendingIn := fun e he => absurd he List.not_mem_nil
  sorted := List.Pairwise.nil
  info := rfl
  grown := Nat.le_refl _
  room := hroom
  root := rfl

/-! ## Trees -/

/-- The nodes of a tree in a list. -/
def Tree.nodes : {d : ℕ} → Tree d → List (Nat × NodeView)
  | 0, t => [(LeafNodeT.pgid t, .leaf (LeafNodeT.txid t) (LeafNodeT.entries t))]
  | d + 1, t =>
      (BranchNodeT.pgid t,
        .branch (BranchNodeT.txid t) (BranchNodeT.entries t)
          ((BranchNodeT.kids t).map (pgid (d := d)))) ::
          (BranchNodeT.kids t).flatMap (nodes (d := d))

theorem nodeObjs_append (ns ms : List (Nat × NodeView)) :
    nodeObjs (ns ++ ms) = nodeObjs ns + nodeObjs ms := by
  unfold nodeObjs
  rw [List.map_append]
  rfl

theorem nodeObjs_nodes {d : ℕ} (t : Tree d) : nodeObjs t.nodes = t.objs := by
  induction d with
  | zero => rfl
  | succ d ih =>
    obtain ⟨p, txid, es, kids, len, rfl⟩ := t.exists_branch
    have hkids : ∀ ks : List (Tree d), nodeObjs (ks.flatMap Tree.nodes) =
        (ks.map Tree.objs).sum := by
      intro ks
      induction ks with
      | nil => rfl
      | cons k ks ihk =>
        rw [List.flatMap_cons, nodeObjs_append, ih, ihk, List.map_cons, List.sum_cons]
    show Obj.node p _ ::ₘ nodeObjs (kids.flatMap Tree.nodes) = _
    rw [hkids]
    rfl

instance (cmp : Bytes → Bytes → Ordering) {d : ℕ} (t : Tree d) : Decidable (t.Ordered cmp) :=
  inferInstanceAs (Decidable (t.flat.Pairwise (Item.Below cmp)))

instance Tree.decidableFull : {d : ℕ} → (t : Tree d) → Decidable t.Full
  | 0, t => inferInstanceAs (Decidable (LeafNodeT.entries t ≠ []))
  | d + 1, t =>
      have := Tree.decidableFull (d := d)
      inferInstanceAs
        (Decidable (BranchNodeT.entries t ≠ [] ∧ ∀ k ∈ BranchNodeT.kids t, Tree.Full (d := d) k))

instance Tree.decidableRootFull : {d : ℕ} → (t : Tree d) → Decidable t.RootFull
  | 0, _ => inferInstanceAs (Decidable True)
  | _ + 1, t => Tree.decidableFull t

/-- A tree is safe when nothing has to be kept. -/
theorem Tree.safe_of_keep_nothing {need : Nat → Bool} {d : ℕ} (t : Tree d) :
    t.Safe need fun _ => False := by
  induction d with
  | zero => exact fun hk => hk.elim
  | succ d ih => exact ⟨fun k _ => ih k, fun hk => hk.elim⟩

/-- **Layout.** An ordered tree whose nodes fit into the pages of the file is well-formed there. -/
theorem wellFormed_layout {env : Env} {ok : env.Ok} {info : MetaInfo} {b : Nat} {d : ℕ} {t : Tree d}
    (hord : t.Ordered env.comparator) (hfull : t.RootFull)
    (hlays : ∀ n ∈ t.nodes, n.2.Lays env.pageSize)
    (hpages : (t.nodes.map Prod.fst).Perm (List.range' 2 t.nodes.length))
    (hroom : t.nodes.length + 2 + b ≤ kPageMaxCount) :
    WellFormed (layoutScope env ok info t.nodes.length) b (.tree t) 0
      (layout env.pageSize info t.pgid t.nodes) where
  own := by
    rw [add_zero]
    show Own _ _ t.pgid t.objs _
    rw [← nodeObjs_nodes t]
    exact own_layout hlays hpages hroom
  ordered := hord
  full := hfull
  safe := t.safe_of_keep_nothing

/-- A new file holds the empty tree. -/
theorem wellFormed_empty {env : Env} {ok : env.Ok} {info : MetaInfo} {b : Nat}
    (hroom : 2 + b ≤ kPageMaxCount) : WellFormed (layoutScope env ok info 0) b .empty 0
      (layout env.pageSize info kPageInvalidId []) where
  own := own_layout (fun _ hn => absurd hn List.not_mem_nil) (List.Perm.refl _)
    ((Nat.zero_add _).symm ▸ hroom)
  ordered := List.Pairwise.nil
  full := trivial
  safe := trivial

/-! ## The smallest page size -/

/-- Lexicographic order of bytes. -/
abbrev byteOrder : Bytes → Bytes → Ordering := List.compareLex compare

/-- The node that a page holds, if it holds one. -/
def Page.asNode : Page → Option Node
  | .node n => some n
  | .raw _ => none

/-- An environment with the smallest page. -/
def smallEnv : Env := ⟨256, byteOrder, 1, 1⟩

theorem smallEnv_ok : smallEnv.Ok :=
  ⟨⟨by decide, by decide, by decide⟩, inferInstanceAs (Std.TransCmp byteOrder),
  inferInstanceAs (Std.LawfulEqCmp byteOrder)⟩

def freshMeta : MetaInfo := ⟨2, kPageInvalidId, kPageInvalidId, 0, 0, 1⟩

theorem admissible_small {key value : Bytes} (h : key.length ≤ 256) (hv : value.length ≤ 256) :
    Admissible 256 key value :=
  ⟨h, h.trans (by decide), hv.trans (by decide)⟩

end AtomKV
