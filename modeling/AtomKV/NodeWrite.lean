import AtomKV.StoreRecord
import Mathlib.Tactic.Abel

/-!
# Writing nodes: what both kinds have in common

Copying a node, reversing its slots, and the passage from a node that says `v` to the same node
after compaction. The last part states when records come and go: `insertRep` and `eraseRep` say what
a page says after a slot was filled or taken out.
-/

set_option autoImplicit false

namespace AtomKV

/-- Only runs that nothing refers to. -/
def JunkOnly (G : Multiset Obj) : Prop := ∀ o ∈ G, ∃ q n, o = Obj.junk q n

theorem JunkOnly.zero : JunkOnly 0 := fun _ h => absurd h (Multiset.notMem_zero _)

theorem JunkOnly.add {G G' : Multiset Obj} (h : JunkOnly G) (h' : JunkOnly G') :
    JunkOnly (G + G') :=
  fun o ho => (Multiset.mem_add.1 ho).elim (h o) (h' o)

theorem JunkOnly.singleton (q n : Nat) : JunkOnly {Obj.junk q n} := fun _ ho =>
  ⟨q, n, Multiset.mem_singleton.1 ho⟩

/-- Slots that agree up to the places of their records. -/
theorem map_eq_of_bare {β : Type} {f : Slot → β}
    (hf : ∀ slot : Slot, f { slot with recordOffset := 0 } = f slot) {l l' : List Slot}
    (h : (l'.map fun slot => { slot with recordOffset := 0 }) = l.map fun slot =>
      { slot with recordOffset := 0 }) :
    l'.map f = l.map f := by
  have key : ∀ m : List Slot, (m.map fun slot => { slot with recordOffset := 0 }).map f = m.map f :=
    fun m => by
    rw [List.map_map]
    exact List.map_congr_left fun slot _ => hf slot
  rw [← key l', ← key l, h]

namespace NodeRep

variable {P : Nat} {v : NodeView} {n n' : Node}

theorem map_of_core {β : Type} {f : Slot → β}
    (hf : ∀ slot : Slot, f { slot with recordOffset := 0 } = f slot)
    (h : n'.core = n.core) : n'.slots.map f = n.slots.map f := by
  have hslots : n'.core.slots = n.core.slots := by rw [h]
  exact map_eq_of_bare hf hslots

/-- Compaction does not change what a node says. -/
theorem of_core (h : NodeRep P v n) (hcore : n'.core = n.core) (hs : Node.Sized P n') :
    NodeRep P v n' := by
  have htxid : n'.core.lastModifiedTxid = n.core.lastModifiedTxid := by rw [hcore]
  have htype : n'.core.type = n.core.type := by rw [hcore]
  have htail : n'.core.tailChild = n.core.tailChild := by rw [hcore]
  have hbody := h.body
  refine ⟨hs, htxid.trans h.txid, ?_, h.admissible, ?_⟩
  · rw [map_of_core (fun _ => rfl) hcore]
    exact h.heads
  · cases hv : v.kids with
    | none =>
      rw [hv] at hbody
      refine ⟨htype.trans hbody.1, ?_⟩
      rw [map_of_core (fun _ => rfl) hcore]
      exact hbody.2
    | some kids =>
      rw [hv] at hbody
      refine ⟨htype.trans hbody.1, hbody.2.1, ?_⟩
      rw [map_of_core (fun _ => rfl) hcore, show n'.tailChild = n.tailChild from htail]
      exact hbody.2.2

/-- The slots of a node, split where its records are. -/
theorem split (h : NodeRep P v n) {es₁ es₂ : List Entry} (hv : v.entries = es₁ ++ es₂) :
    ∃ l₁ l₂, n.slots = l₁ ++ l₂ ∧ l₁.map Slot.head = es₁.map (Entry.head P) ∧
      l₂.map Slot.head = es₂.map (Entry.head P) ∧ l₁.length = es₁.length := by
  have hheads := h.heads
  rw [hv, List.map_append] at hheads
  obtain ⟨l₁, l₂, hl, h1, h2, hlen⟩ := ListAt.exists_split_of_map hheads
  exact ⟨l₁, l₂, hl, h1, h2, by rw [hlen, List.length_map]⟩

/-- The slot of a record in the middle. -/
theorem split_cons (h : NodeRep P v n) {es₁ es₂ : List Entry} {e : Entry}
    (hv : v.entries = es₁ ++ e :: es₂) :
    ∃ l₁ slot l₂, n.slots = l₁ ++ slot :: l₂ ∧ l₁.map Slot.head = es₁.map (Entry.head P) ∧
      slot.head = e.head P ∧ l₂.map Slot.head = es₂.map (Entry.head P) ∧
      l₁.length = es₁.length := by
  obtain ⟨l₁, l, hl, h1, h2, hlen⟩ := h.split hv
  rw [List.map_cons] at h2
  obtain ⟨slot, l₂, rfl, hslot, h3⟩ := List.map_eq_cons_iff.1 h2
  exact ⟨l₁, slot, l₂, hl, h1, hslot, h3, hlen⟩

end NodeRep

namespace Own

variable {Γ : PageScope} {b r : ℕ} {O : Multiset Obj} {s : TxState} {q : Nat} {v : NodeView}

/-- **`Node::Copy`.** The records' runs move to the copy; the old page becomes pending. -/
theorem copy (h : Own Γ (b + 1) r (.node q v ::ₘ O) s) :
    Exec.Ok (Node.copy q) s fun q' s' => ¬ Γ.keep q' ∧ q' ≠ q ∧
      Own Γ b r (.node q' { v with txid := Γ.txid } ::ₘ O) s' ∧
      ∃ n, s.pager.pages q = .node n ∧
        s'.pager.pages q' = .node { n with lastModifiedTxid := Γ.txid } := by
  obtain ⟨n, hrep, hown⟩ := h.unfold_node
  obtain ⟨q', s₁, halloc, h₁⟩ := hown.alloc
  obtain ⟨hkeep, h₁⟩ := h₁.area_page
  have hpage : s₁.pager.pages q = .node n := h₁.rep (.page q (.node n))
    (Multiset.mem_cons_of_mem (Multiset.mem_cons_self _ _))
  obtain ⟨s₂, hset, h₂⟩ := h₁.setPage hkeep (.node n)
  rw [Multiset.cons_swap] at h₂
  have hle := (h₂.run_le (q := q) (n := 1) (fun _ => rfl) Nat.one_pos).2
  obtain ⟨s₃, hfree, h₃, -⟩ := (h₂.toJunk (q := q) (n := 1) fun _ => rfl).free hle
  obtain ⟨s₄, hset', h₄⟩ := h₃.setNode hkeep { n with lastModifiedTxid := Γ.txid }
  have hcopy : Pager.copy q s = (.ok q', s₃) := by
    unfold Pager.copy
    rw [Exec.bind_of_ok halloc, Exec.read_bind, hpage, Exec.bind_of_ok hset, Exec.bind_of_ok hfree]
    rfl
  have hnew : q' ≠ q := by
    rintro rfl
    have hone := h₂.disjoint (page_pos q' (.node n))
    have hpos := page_pos (Γ := Γ) q' (.node n)
    rw [objsCount_cons] at hone
    omega
  refine Exec.Ok.intro q' s₄ ?_ ⟨hkeep, hnew, h₄.fold_node (v := { v with txid := Γ.txid }) rfl ?_,
    n, hown.rep _ (Multiset.mem_cons_self _ _), h₄.rep _ (Multiset.mem_cons_self _ _)⟩
  · unfold Node.copy
    rw [Exec.bind_of_ok hcopy, Exec.bind_of_ok h₃.getNode, Exec.read_bind, h₃.txid_eq,
      Exec.bind_of_ok hset']
    rfl
  · exact ⟨⟨⟨hrep.sized.lo, hrep.sized.hi, hrep.sized.lt⟩, hrep.sized.used, hrep.sized.laid⟩, rfl,
      hrep.heads, hrep.admissible, by cases hv : v.kids <;> simpa [BodyRep, hv] using hrep.body⟩

/-- A node whose slots come in the opposite order. -/
theorem reverseSlots_leaf {t : Nat} {es : List Entry} (h : Own Γ b r (.node q (.leaf t es) ::ₘ O) s)
    (hq : ¬ Γ.keep q) :
    ∃ s', Node.reverseSlots q s = (.ok (), s') ∧
      Own Γ b r (.node q (.leaf t es.reverse) ::ₘ O) s' := by
  obtain ⟨n, hrep, hown⟩ := h.unfold_node
  obtain ⟨s', hset, h'⟩ := hown.setNode hq { n with slots := n.slots.reverse }
  refine ⟨s', ?_, h'.fold_node ?_ ?_⟩
  · unfold Node.reverseSlots
    rw [Exec.bind_of_ok hown.getNode, hset]
  · show _ = recordsOf Γ.P es.reverse + O
    rw [recordsOf_reverse]
  · obtain ⟨hsized, htxid, hheads, hadm, htype, htail⟩ := hrep
    refine ⟨⟨⟨?_, hsized.hi, ?_⟩, ?_, ?_⟩, htxid, ?_, ?_, htype, ?_⟩
    · simpa [Node.slotBytes, Node.count] using hsized.lo
    · simpa [Node.slotBytes, Node.count] using hsized.lt
    · simpa [Node.slotsSpace, Node.isLeaf] using hsized.used
    · exact hsized.laid.perm ((List.reverse_perm n.slots).symm.map _)
    · simpa using congrArg List.reverse hheads
    · simpa using hadm
    · simpa using congrArg List.reverse htail

theorem reverseSlots_branch {t : Nat} {es : List Entry} {kids : List Nat} {c : Nat}
    (h : Own Γ b r (.node q (.branch t es (kids ++ [c])) ::ₘ O) s) (hq : ¬ Γ.keep q) :
    ∃ s', Node.reverseSlots q s = (.ok (), s') ∧
      Own Γ b r (.node q (.branch t es.reverse (kids.reverse ++ [c])) ::ₘ O) s' := by
  obtain ⟨n, hrep, hown⟩ := h.unfold_node
  obtain ⟨s', hset, h'⟩ := hown.setNode hq { n with slots := n.slots.reverse }
  refine ⟨s', ?_, h'.fold_node ?_ ?_⟩
  · unfold Node.reverseSlots
    rw [Exec.bind_of_ok hown.getNode, hset]
  · show _ = recordsOf Γ.P es.reverse + O
    rw [recordsOf_reverse]
  · obtain ⟨hsized, htxid, hheads, hadm, htype, hvalues, hkids⟩ := hrep
    obtain ⟨hwords, hc⟩ := List.append_inj' hkids rfl
    refine ⟨⟨⟨?_, hsized.hi, ?_⟩, ?_, ?_⟩, htxid, ?_, ?_, htype, ?_, ?_⟩
    · simpa [Node.slotBytes, Node.count] using hsized.lo
    · simpa [Node.slotBytes, Node.count] using hsized.lt
    · simpa [Node.slotsSpace, Node.isLeaf] using hsized.used
    · exact hsized.laid.perm ((List.reverse_perm n.slots).symm.map _)
    · simpa using congrArg List.reverse hheads
    · simpa using hadm
    · simpa using hvalues
    · rw [List.map_reverse, hwords, (List.cons.inj hc).1]

/-- `LeafNode::Build` on a new page. -/
theorem buildLeaf (h : Own Γ b r (.area q 1 ::ₘ O) s) :
    ∃ s', LeafNode.build Γ.env q s = (.ok (), s') ∧ ¬ Γ.keep q ∧
      Own Γ b r (.node q (.leaf Γ.txid []) ::ₘ O) s' ∧ NumbersAt q (Ledger.empty Γ.P) s' := by
  have hP := Γ.hP
  have hmin := hP.min
  have hmax := hP.lt_max
  have hoff : i16 Γ.P = Γ.P := i16_of_range (by omega) (by omega)
  obtain ⟨hkeep, h'⟩ := h.area_page
  obtain ⟨s', hset, h''⟩ := h'.setNode hkeep
    { type := .kLeaf, slots := [], dataOffset := i16 Γ.P, spaceUsed := 0, tailChild := 0,
      lastModifiedTxid := s.metaStruct.txid }
  refine ⟨s', hset, hkeep, h''.fold_node (by simp) ?_, _, h''.rep _ (Multiset.mem_cons_self _ _), by
    rw [hoff]
    rfl⟩
  refine ⟨⟨⟨?_, ?_, ?_⟩, rfl, .nil _ _⟩, h.txid_eq, rfl, by simp, rfl, rfl⟩
  · simp only [Node.slotBytes, Node.count, List.length_nil, hoff]
    omega
  · simp only [hoff]
    omega
  · simp only [Node.slotBytes, Node.count, List.length_nil]
    omega

/-- `BranchNode::Build` on a new page. -/
theorem buildBranch (h : Own Γ b r (.area q 1 ::ₘ O) s) (tail : Nat) :
    ∃ s', BranchNode.build Γ.env q tail s = (.ok (), s') ∧ ¬ Γ.keep q ∧
      Own Γ b r (.node q (.branch Γ.txid [] [tail]) ::ₘ O) s' ∧
      NumbersAt q (Ledger.empty Γ.P) s' := by
  have hP := Γ.hP
  have hmin := hP.min
  have hmax := hP.lt_max
  have hoff : i16 Γ.P = Γ.P := i16_of_range (by omega) (by omega)
  obtain ⟨hkeep, h'⟩ := h.area_page
  obtain ⟨s', hset, h''⟩ := h'.setNode hkeep
    { type := .kBranch, slots := [], dataOffset := i16 Γ.P, spaceUsed := 0, tailChild := tail,
      lastModifiedTxid := s.metaStruct.txid }
  refine ⟨s', hset, hkeep, h''.fold_node (by simp) ?_, _, h''.rep _ (Multiset.mem_cons_self _ _), by
    rw [hoff]
    rfl⟩
  refine ⟨⟨⟨?_, ?_, ?_⟩, rfl, .nil _ _⟩, h.txid_eq, rfl, by simp, rfl, by simp, rfl⟩
  · simp only [Node.slotBytes, Node.count, List.length_nil, hoff]
    omega
  · simp only [hoff]
    omega
  · simp only [Node.slotBytes, Node.count, List.length_nil]
    omega

end Own

end AtomKV
