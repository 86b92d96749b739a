import AtomKV.NodeSpace
import AtomKV.PagerBytes
import AtomKV.PagerCounts
import AtomKV.BTreeIterator
import Mathlib.Algebra.BigOperators.Group.Multiset.Basic

/-!
# Ownership of pages

What a write transaction holds is a multiset of objects: nodes with their records, runs of overflow
pages, pages that were just allocated. `Own Γ b r O s` says that the objects `O` are in the state
`s`, and that every page from 2 on is accounted for exactly once: it belongs to one object, or it is
free, pending, or past the end of the file. The scope `Γ` is what an operation must leave alone: the
pages it has to keep, the pending runs of other transactions and the meta's other fields. `b` is the
number of pages the file may still grow by, and `r` is the root page of the tree at work.

The rules below are all that later modules use. An object that is not named by a rule is carried
along.
-/

set_option autoImplicit false

namespace AtomKV

/-- What the proofs require of the environment: a page size in use, and a comparator that is a total
order. -/
structure Env.Ok (env : Env) : Prop where
  pageSize : PageSizeOk env.pageSize
  trans : Std.TransCmp env.comparator
  lawfulEq : Std.LawfulEqCmp env.comparator

/-- A record: what a slot stands for, and the first page of its run when it does not fit
into the page. -/
structure Entry where
  key : Bytes
  value : Bytes
  isBucket : Bool
  run : Nat

namespace Entry

variable (P : Nat) (e : Entry)

def size : Nat := e.key.length + e.value.length

/-- The space the record takes in its node. -/
def stub : Nat := Node.stubSize P e.size

/-- The number of overflow pages. -/
def pages : Nat := if Node.maxInline P < e.size then Pager.getPageCount P e.size else 0

/-- What the slot's `record_offset` leads to. -/
def record : Record :=
  if Node.maxInline P < e.size then .overflow e.run else .inlined (e.key ++ e.value)

/-- The part of the slot that every node has. -/
def head : Record × Nat := (e.record P, e.key.length)

/-- The part of the slot that only a leaf has. -/
def leafPart : Nat × Bool := (e.value.length, e.isBucket)

/-- The sizes that `StoreRecord` accepts. -/
structure Ok : Prop where
  key_le_page : e.key.length ≤ P
  key_le : e.key.length ≤ kKeyMaxSize
  value_le : e.value.length ≤ kValueMaxSize

/-- The record as the user sees it. -/
def data : Bytes × Bytes × Bool := (e.key, e.value, e.isBucket)

end Entry

namespace Slot

def head (slot : Slot) : Record × Nat := (slot.record, slot.keySize)

def leafPart (slot : Slot) : Nat × Bool := (slot.word, slot.isBucket)

end Slot

/-- What a node says: its transaction, its records, and its children if it is a branch. -/
structure NodeView where
  txid : Nat
  entries : List Entry
  kids : Option (List Nat)

/-- A leaf with the records `es`. -/
abbrev NodeView.leaf (txid : Nat) (es : List Entry) : NodeView := ⟨txid, es, none⟩

/-- A branch with the keys `es` and the children `kids`. -/
abbrev NodeView.branch (txid : Nat) (es : List Entry) (kids : List Nat) : NodeView :=
  ⟨txid, es, some kids⟩

/-- The part of a node that depends on its kind. -/
def BodyRep (es : List Entry) : Option (List Nat) → Node → Prop
  | none, n => n.type = .kLeaf ∧ n.slots.map Slot.leafPart = es.map Entry.leafPart
  | some kids, n => n.type = .kBranch ∧ (∀ e ∈ es, e.value = []) ∧
      n.slots.map Slot.word ++ [n.tailChild] = kids

/-- The node `n` says `v`. -/
structure NodeRep (P : Nat) (v : NodeView) (n : Node) : Prop where
  sized : Node.Sized P n
  txid : n.lastModifiedTxid = v.txid
  heads : n.slots.map Slot.head = v.entries.map (Entry.head P)
  admissible : ∀ e ∈ v.entries, e.Ok P
  body : BodyRep v.entries v.kids n

/-- What a transaction can hold. -/
inductive Obj where
  /-- A page with a known content. -/
  | page (pgid : Nat) (content : Page)
  /-- Pages that were allocated and may be written. -/
  | area (pgid : Nat) (count : Nat)
  /-- Pages that nothing refers to. -/
  | junk (pgid : Nat) (count : Nat)
  /-- A run of overflow pages with these bytes. -/
  | run (pgid : Nat) (bytes : Bytes)
  /-- A node together with the runs of its records. -/
  | node (pgid : Nat) (v : NodeView)

/-- What an operation on nodes may rely on and has to leave alone. -/
structure PageScope where
  env : Env
  range : PageRange env.pageSize
  /-- The transaction's meta when it began. -/
  txMeta : MetaInfo
  /-- Pages that must not be written or handed out, and their contents. -/
  keep : Nat → Prop
  pages : Nat → Page
  /-- The pending pages of the other transactions. -/
  pending : Nat → Nat → ℕ
  /-- The pages in the free map or drawn from it. -/
  drawn : Nat → ℕ

namespace PageScope

/-- The page size. -/
abbrev P (Γ : PageScope) : Nat := Γ.env.pageSize

/-- The id of the transaction. -/
abbrev txid (Γ : PageScope) : Nat := Γ.txMeta.txid

theorem hP (Γ : PageScope) : PageRange Γ.P := Γ.range

theorem P_pos (Γ : PageScope) : 0 < Γ.P := Nat.lt_of_lt_of_le (by omega) Γ.hP.min

end PageScope

/-- What an operation on trees may rely on and has to leave alone. -/
structure Scope extends PageScope where
  ok : env.Ok
  range := ok.pageSize.range

instance : Coe Scope PageScope := ⟨Scope.toPageScope⟩

/-! ## Counting the pages of objects -/

/-- How often `p` is among the overflow pages of the records. -/
def entriesCount (P : Nat) (es : List Entry) (p : Nat) : ℕ :=
  (es.map fun e => runCount (e.run, e.pages P) p).sum

/-- How often `p` is among the pages of an object. -/
def objCount (P : Nat) : Obj → Nat → ℕ
  | .page pgid _, p => runCount (pgid, 1) p
  | .area pgid count, p => runCount (pgid, count) p
  | .junk pgid count, p => runCount (pgid, count) p
  | .run pgid bytes, p => runCount (pgid, Pager.getPageCount P bytes.length) p
  | .node pgid v, p => runCount (pgid, 1) p + entriesCount P v.entries p

/-- How often `p` is among the pages of the objects. -/
def objsCount (P : Nat) (O : Multiset Obj) (p : Nat) : ℕ := (O.map fun o => objCount P o p).sum

/-- The overflow runs of the records. -/
def recordsOf (P : Nat) (es : List Entry) : Multiset Obj :=
  ((es.filter fun e => decide (Node.maxInline P < e.size)).map fun e =>
    Obj.run e.run (e.key ++ e.value) : List Obj)

section Counts

variable (P : Nat)

@[simp] theorem objsCount_zero (p : Nat) : objsCount P 0 p = 0 := rfl

@[simp] theorem objsCount_cons (o : Obj) (O : Multiset Obj) (p : Nat) :
    objsCount P (o ::ₘ O) p = objCount P o p + objsCount P O p := by
  simp [objsCount]

@[simp] theorem objsCount_add (O O' : Multiset Obj) (p : Nat) :
    objsCount P (O + O') p = objsCount P O p + objsCount P O' p := by
  simp [objsCount]

@[simp] theorem entriesCount_nil (p : Nat) : entriesCount P [] p = 0 := rfl

@[simp] theorem entriesCount_cons (e : Entry) (es : List Entry) (p : Nat) :
    entriesCount P (e :: es) p = runCount (e.run, e.pages P) p + entriesCount P es p := by
  simp [entriesCount]

@[simp] theorem entriesCount_append (es es' : List Entry) (p : Nat) :
    entriesCount P (es ++ es') p = entriesCount P es p + entriesCount P es' p := by
  simp [entriesCount]

theorem objCount_le_objsCount {o : Obj} {O : Multiset Obj} (h : o ∈ O) (p : Nat) :
    objCount P o p ≤ objsCount P O p := by
  obtain ⟨O', rfl⟩ := Multiset.exists_cons_of_mem h
  rw [objsCount_cons]
  omega

theorem le_entriesCount {e : Entry} {es : List Entry} (h : e ∈ es) (p : Nat) :
    runCount (e.run, e.pages P) p ≤ entriesCount P es p := by
  obtain ⟨l₁, l₂, rfl⟩ := List.append_of_mem h
  rw [entriesCount_append, entriesCount_cons]
  omega

@[simp] theorem recordsOf_nil : recordsOf P [] = 0 := rfl

theorem recordsOf_cons_overflow {e : Entry} (he : Node.maxInline P < e.size) (es : List Entry) :
    recordsOf P (e :: es) = Obj.run e.run (e.key ++ e.value) ::ₘ recordsOf P es := by
  simp [recordsOf, he]

theorem recordsOf_cons_inline {e : Entry} (he : ¬ Node.maxInline P < e.size) (es : List Entry) :
    recordsOf P (e :: es) = recordsOf P es := by
  simp [recordsOf, he]

@[simp] theorem recordsOf_append (es es' : List Entry) :
    recordsOf P (es ++ es') = recordsOf P es + recordsOf P es' := by
  simp [recordsOf]

theorem recordsOf_cons (e : Entry) (es : List Entry) :
    recordsOf P (e :: es) = recordsOf P [e] + recordsOf P es :=
  recordsOf_append P [e] es

theorem mem_recordsOf {es : List Entry} {o : Obj} :
    o ∈ recordsOf P es ↔
      ∃ e ∈ es, Node.maxInline P < e.size ∧ o = .run e.run (e.key ++ e.value) := by
  simp [recordsOf, and_assoc, eq_comm]

/-- The runs of a node's records, counted as objects. -/
theorem objsCount_recordsOf (es : List Entry) (p : Nat) :
    objsCount P (recordsOf P es) p = entriesCount P es p := by
  induction es with
  | nil => rfl
  | cons e es ih =>
    rw [entriesCount_cons]
    by_cases he : Node.maxInline P < e.size
    · rw [recordsOf_cons_overflow P he, objsCount_cons, ih]
      simp only [objCount, Entry.pages, if_pos he, List.length_append]
      rfl
    · rw [recordsOf_cons_inline P he, ih]
      simp only [Entry.pages, if_neg he, runCount_zero, Nat.zero_add]

theorem recordsOf_reverse (es : List Entry) : recordsOf P es.reverse = recordsOf P es := by
  simp only [recordsOf, List.filter_reverse, List.map_reverse]
  exact Multiset.coe_eq_coe.2 (List.reverse_perm _)

end Counts

/-! ## Objects in a state -/

/-- The record's overflow pages hold its bytes. -/
def Entry.Stored (P : Nat) (pager : Pager) (e : Entry) : Prop :=
  Node.maxInline P < e.size → Pager.readBytes P pager e.run e.size = e.key ++ e.value

namespace Obj

/-- The object is in the pager's pages. -/
def Rep (Γ : PageScope) (pager : Pager) : Obj → Prop
  | .page pgid content => pager.pages pgid = content
  | .area pgid count => ∀ p, pgid ≤ p → p < pgid + count → ¬ Γ.keep p
  | .junk _ _ => True
  | .run pgid bytes => Pager.readBytes Γ.P pager pgid bytes.length = bytes
  | .node pgid v => ∃ n, pager.pages pgid = .node n ∧ NodeRep Γ.P v n ∧
      ∀ e ∈ v.entries, e.Stored Γ.P pager

variable {Γ : PageScope} {pager pager' : Pager}

/-- An object depends on its own pages only. -/
theorem Rep.congr {o : Obj} (h : o.Rep Γ pager)
    (hp : ∀ p, 0 < objCount Γ.P o p → pager'.pages p = pager.pages p) : o.Rep Γ pager' := by
  cases o with
  | page pgid content =>
    have := hp pgid ((runCount_pos_iff _ _).2 ⟨Nat.le_refl _, Nat.lt_succ_self _⟩)
    exact this.trans h
  | area pgid count => exact h
  | junk pgid count => trivial
  | run pgid bytes =>
    have hread : Pager.readBytes Γ.P pager' pgid bytes.length =
        Pager.readBytes Γ.P pager pgid bytes.length :=
      Pager.readBytes_congr Γ.P_pos fun p h1 h2 => hp p ((runCount_pos_iff _ _).2 ⟨h1, h2⟩)
    exact hread.trans h
  | node pgid v =>
    obtain ⟨n, hn, hrep, hstored⟩ := h
    have hself : 0 < runCount (pgid, 1) pgid :=
      (runCount_pos_iff _ _).2 ⟨Nat.le_refl _, Nat.lt_succ_self _⟩
    refine ⟨n, ?_, hrep, fun e he hover => ?_⟩
    · exact (hp pgid (Nat.add_pos_left hself _)).trans hn
    · have hread : Pager.readBytes Γ.P pager' e.run e.size =
          Pager.readBytes Γ.P pager e.run e.size := by
        refine Pager.readBytes_congr Γ.P_pos fun p h1 h2 => hp p ?_
        have hrun : 0 < runCount (e.run, e.pages Γ.P) p := by
          rw [Entry.pages, if_pos hover]
          exact (runCount_pos_iff _ _).2 ⟨h1, h2⟩
        have hmem : runCount (e.run, e.pages Γ.P) p ≤ entriesCount Γ.P v.entries p :=
          le_entriesCount Γ.P he p
        exact Nat.add_pos_right _ (Nat.lt_of_lt_of_le hrun hmem)
      rw [hread]
      exact hstored e he hover

end Obj

/-- The pages that `Alloc` can hand out: free ones, and those past the end of the file. -/
def availCount (s : TxState) (p : Nat) : ℕ :=
  runsCount s.pager.freeMap p + if s.metaStruct.pageCount ≤ p then 1 else 0

/-- **Ownership.** Pages go by their ids, of which `b` more may be given out. That the pages have
addresses of their own as well takes `(pageCount + b) * pageSize ≤ 2 ^ 32`, since the products are
computed with 32 bits. -/
structure Own (Γ : PageScope) (b : ℕ) (r : Nat) (O : Multiset Obj) (s : TxState) : Prop where
  rep : ∀ o ∈ O, o.Rep Γ s.pager
  count : ∀ p, objsCount Γ.P O p + availCount s p + Pager.pendingCount s.pager.pendingMap p =
    if 2 ≤ p then 1 else 0
  kept : ∀ p, Γ.keep p → s.pager.pages p = Γ.pages p ∧ availCount s p = 0
  pending : ∀ t p, t ≠ Γ.txid → Pager.pendingCountAt s.pager.pendingMap t p = Γ.pending t p
  drawn : ∀ p, runsCount s.pager.freeMap p + runsCount s.pager.allocRecords p = Γ.drawn p
  freeIn : ∀ r ∈ s.pager.freeMap, r.1 + r.2 ≤ s.metaStruct.pageCount
  drawnIn : ∀ r ∈ s.pager.allocRecords, r.1 + r.2 ≤ s.metaStruct.pageCount
  pendingIn : Pager.PendingIn s.pager.pendingMap s.metaStruct.pageCount
  sorted : Pager.PendingSorted s.pager.pendingMap
  info : s.metaStruct = { Γ.txMeta with pageCount := s.metaStruct.pageCount }
  grown : Γ.txMeta.pageCount ≤ s.metaStruct.pageCount
  room : s.metaStruct.pageCount + b ≤ kPageMaxCount
  root : s.rootPgid = r

namespace Own

variable {Γ : PageScope} {b r : ℕ} {O O' : Multiset Obj} {o o' : Obj} {s : TxState}

theorem txid_eq (h : Own Γ b r O s) : s.metaStruct.txid = Γ.txid := by
  rw [h.info]

theorem room_mono (h : Own Γ b r O s) (b' : ℕ) (hb : b' ≤ b) : Own Γ b' r O s :=
  { h with room := Nat.le_trans (Nat.add_le_add_left hb _) h.room }

/-- Objects in another order. -/
theorem perm (h : Own Γ b r O s) (he : O = O') : Own Γ b r O' s := he ▸ h

theorem setRoot (h : Own Γ b r O s) (r' : Nat) : Own Γ b r' O { s with rootPgid := r' } :=
  { h with root := rfl }

/-- A page of an object lies in the file and is no meta page. -/
theorem page_lt (h : Own Γ b r (o ::ₘ O) s) {p : Nat} (hp : 0 < objCount Γ.P o p) :
    2 ≤ p ∧ p < s.metaStruct.pageCount := by
  have hc := h.count p
  rw [objsCount_cons] at hc
  unfold availCount at hc
  split_ifs at hc with h1 h2 <;> omega

/-- Two objects have no page in common. -/
theorem disjoint (h : Own Γ b r (o ::ₘ O) s) {p : Nat} (hp : 0 < objCount Γ.P o p) :
    objsCount Γ.P O p = 0 ∧ availCount s p = 0 ∧ Pager.pendingCount s.pager.pendingMap p = 0 := by
  have hc := h.count p
  rw [objsCount_cons] at hc
  split_ifs at hc <;> omega

/-- Replacing objects by objects with the same pages. -/
theorem replace (h : Own Γ b r (O + O') s) (O'' : Multiset Obj)
    (hcount : ∀ p, objsCount Γ.P O'' p = objsCount Γ.P O p) (hrep : ∀ o ∈ O'', o.Rep Γ s.pager) :
    Own Γ b r (O'' + O') s :=
  { h with
    rep := fun o ho => (Multiset.mem_add.1 ho).elim (hrep o) fun ho =>
      h.rep o (Multiset.mem_add.2 (.inr ho))
    count := fun p => by
      have := h.count p
      rw [objsCount_add] at this ⊢
      rw [hcount p]
      exact this }

theorem replace_one (h : Own Γ b r (o ::ₘ O) s) (hcount : ∀ p, objCount Γ.P o' p = objCount Γ.P o p)
    (hrep : o'.Rep Γ s.pager) : Own Γ b r (o' ::ₘ O) s := by
  rw [← Multiset.singleton_add] at h ⊢
  refine h.replace _ (fun p => ?_) fun o ho => ?_
  · simp only [objsCount, Multiset.map_singleton, Multiset.sum_singleton, hcount p]
  · rw [Multiset.mem_singleton.1 ho]
    exact hrep

/-! ### Pages -/

theorem page_pos (pgid : Nat) (content : Page) : 0 < objCount Γ.P (.page pgid content) pgid :=
  (runCount_pos_iff _ _).2 ⟨Nat.le_refl _, Nat.lt_succ_self _⟩

/-- A node is read through its page pointer. -/
theorem getNode {q : Nat} {n : Node} (h : Own Γ b r (.page q (.node n) ::ₘ O) s) :
    Pager.getNode q s = (.ok n, s) := by
  have hpage : s.pager.pages q = .node n := h.rep _ (Multiset.mem_cons_self _ _)
  have hq := (h.page_lt (page_pos q _)).2
  have hroom := h.room
  have h1 : q ≠ kPageInvalidId := by
    unfold kPageInvalidId
    unfold kPageMaxCount at hroom
    omega
  have h2 : q < kPageMaxCount := by omega
  unfold Pager.getNode assert
  rw [Exec.require_bind h1, Exec.require_bind h2, Exec.read_bind, hpage]
  rfl

/-- Writing a page that need not be kept. -/
theorem setPage {q : Nat} {x : Page} (h : Own Γ b r (.page q x ::ₘ O) s) (hq : ¬ Γ.keep q)
    (y : Page) : ∃ s', Pager.setPage q y s = (.ok (), s') ∧ Own Γ b r (.page q y ::ₘ O) s' := by
  refine ⟨_, rfl, ?_⟩
  exact
    { h with
      rep := fun o ho => by
        rcases Multiset.mem_cons.1 ho with rfl | ho
        · exact Function.update_self ..
        · refine (h.rep o (Multiset.mem_cons_of_mem ho)).congr fun p hp => ?_
          have hne : p ≠ q := by
            intro he
            rw [he] at hp
            have h1 := (h.disjoint (page_pos q x)).1
            have h2 := objCount_le_objsCount Γ.P ho q
            omega
          exact Function.update_of_ne hne ..
      count := fun p => by
        have := h.count p
        rw [objsCount_cons] at this ⊢
        exact this
      kept := fun p hp => by
        have hne : p ≠ q := by
          rintro rfl
          exact hq hp
        exact ⟨(Function.update_of_ne hne ..).trans (h.kept p hp).1, (h.kept p hp).2⟩ }

theorem setNode {q : Nat} {x : Page} (h : Own Γ b r (.page q x ::ₘ O) s) (hq : ¬ Γ.keep q)
    (n : Node) :
    ∃ s', Pager.setNode q n s = (.ok (), s') ∧ Own Γ b r (.page q (.node n) ::ₘ O) s' :=
  h.setPage hq _

/-! ### Nodes -/

/-- A node seen as its page and the runs of its records. -/
theorem unfold_node {q : Nat} {v : NodeView} (h : Own Γ b r (.node q v ::ₘ O) s) :
    ∃ n, NodeRep Γ.P v n ∧
      Own Γ b r (.page q (.node n) ::ₘ (recordsOf Γ.P v.entries + O)) s := by
  obtain ⟨n, hn, hrep, hstored⟩ := h.rep _ (Multiset.mem_cons_self _ _)
  refine ⟨n, hrep, ?_⟩
  rw [← Multiset.cons_add]
  rw [← Multiset.singleton_add] at h
  refine h.replace _ (fun p => ?_) fun o ho => ?_
  · rw [objsCount_cons, objsCount_recordsOf]
    simp only [objsCount, Multiset.map_singleton, Multiset.sum_singleton, objCount]
  · rcases Multiset.mem_cons.1 ho with rfl | ho
    · exact hn
    · obtain ⟨e, he, hover, rfl⟩ := (mem_recordsOf _).1 ho
      have := hstored e he hover
      rwa [Entry.size, ← List.length_append] at this

/-- A page and the runs of its records put together to a node. -/
theorem fold_node {q : Nat} {v : NodeView} {n : Node} (h : Own Γ b r (.page q (.node n) ::ₘ O') s)
    (hO : O' = recordsOf Γ.P v.entries + O) (hrep : NodeRep Γ.P v n) :
    Own Γ b r (.node q v ::ₘ O) s := by
  rw [hO, ← Multiset.cons_add] at h
  rw [← Multiset.singleton_add]
  refine h.replace _ (fun p => ?_) fun o ho => ?_
  · rw [objsCount_cons, objsCount_recordsOf]
    simp only [objsCount, Multiset.map_singleton, Multiset.sum_singleton, objCount]
  · obtain rfl := Multiset.mem_singleton.1 ho
    refine ⟨n, ?_, hrep, fun e he hover => ?_⟩
    · exact h.rep (.page q (.node n)) (Multiset.mem_add.2 (.inl (Multiset.mem_cons_self _ _)))
    · have := h.rep (.run e.run (e.key ++ e.value))
        (Multiset.mem_add.2 (.inl (Multiset.mem_cons_of_mem
          ((mem_recordsOf _).2 ⟨e, he, hover, rfl⟩))))
      rw [Entry.size, ← List.length_append]
      exact this

theorem node_pos (q : Nat) (v : NodeView) : 0 < objCount Γ.P (.node q v) q :=
  Nat.add_pos_left ((runCount_pos_iff _ _).2 ⟨Nat.le_refl _, Nat.lt_succ_self _⟩) _

/-- Reading a node that the transaction holds. -/
theorem read_node {q : Nat} {v : NodeView} (h : Own Γ b r (.node q v ::ₘ O) s) :
    ∃ n, NodeRep Γ.P v n ∧ Pager.getNode q s = (.ok n, s) ∧ s.pager.pages q = .node n ∧
      ∀ e ∈ v.entries, e.Stored Γ.P s.pager := by
  obtain ⟨n, hrep, hown⟩ := h.unfold_node
  obtain ⟨n', hn', -, hstored⟩ := h.rep _ (Multiset.mem_cons_self _ _)
  exact ⟨n, hrep, hown.getNode, hown.rep _ (Multiset.mem_cons_self _ _), hstored⟩

/-! ### Allocation and release -/

/-- A freshly allocated run may be written. -/
theorem alloc {n : Nat} (h : Own Γ (b + n) r O s) :
    Exec.Ok (Pager.alloc n) s fun q s' => Own Γ b r (.area q n ::ₘ O) s' := by
  have hroom := h.room
  -- The run comes from the free map, or from behind the last page of the file.
  cases hm : Pager.allocFromMap n s.pager.freeMap with
  | some q =>
    obtain ⟨q, m'⟩ := q
    have hcount := Pager.runsCount_allocFromMap hm
    obtain ⟨hrun, hin⟩ := Pager.allocFromMap_in hm h.freeIn
    -- The pages of the run were available before, and are no longer.
    have havail : ∀ p, availCount s p = runCount (q, n) p +
        (runsCount m' p + if s.metaStruct.pageCount ≤ p then 1 else 0) := fun p => by
      rw [availCount, hcount p, Nat.add_assoc]
    refine ⟨q, { s with pager := { s.pager with
        freeMap := m', allocRecords := s.pager.allocRecords ++ [(q, n)] } }, ?_, ?_⟩
    · unfold Pager.alloc
      rw [Exec.read_bind, hm]
      rfl
    · exact
        { h with
          rep := fun o ho => by
            rcases Multiset.mem_cons.1 ho with rfl | ho
            · intro p h1 h2 hkeep
              have hpos : 0 < runCount (q, n) p := (runCount_pos_iff _ _).2 ⟨h1, h2⟩
              have := (h.kept p hkeep).2
              rw [havail] at this
              omega
            · exact (h.rep o ho).congr fun p _ => rfl
          count := fun p => by
            have h1 := h.count p
            rw [havail] at h1
            rw [objsCount_cons]
            show runCount (q, n) p + _ +
              (runsCount m' p + if s.metaStruct.pageCount ≤ p then 1 else 0) +
              Pager.pendingCount s.pager.pendingMap p = _
            omega
          kept := fun p hp => by
            have h1 := (h.kept p hp).2
            rw [havail] at h1
            refine ⟨(h.kept p hp).1, ?_⟩
            show (runsCount m' p + if s.metaStruct.pageCount ≤ p then 1 else 0) = 0
            omega
          drawn := fun p => by
            have h1 := h.drawn p
            rw [hcount p] at h1
            show runsCount m' p + runsCount (s.pager.allocRecords ++ [(q, n)]) p = _
            rw [runsCount_append, runsCount_cons, runsCount_nil]
            omega
          freeIn := hin
          drawnIn := fun r hr => by
            rcases List.mem_append.1 hr with hr | hr
            · exact h.drawnIn r hr
            · rw [List.mem_singleton.1 hr]
              exact hrun
          room := by
            show s.metaStruct.pageCount + b ≤ kPageMaxCount
            omega }
  | none =>
    have hmax : kPageMaxCount < 4294967296 := by decide
    -- The room that the caller promises keeps the 32-bit page count from wrapping.
    have hu : u32 (s.metaStruct.pageCount + n) = s.metaStruct.pageCount + n := u32_of_lt (by omega)
    have hlt : ¬ s.metaStruct.pageCount + n < s.metaStruct.pageCount := by omega
    have havail : ∀ p, availCount s p = runCount (s.metaStruct.pageCount, n) p +
        (runsCount s.pager.freeMap p + if s.metaStruct.pageCount + n ≤ p then 1 else 0) :=
          fun p => by
      rw [availCount, runCount_mk]
      split_ifs <;> omega
    have hinfo := h.info
    refine ⟨s.metaStruct.pageCount, { s with metaStruct := { s.metaStruct with
        pageCount := s.metaStruct.pageCount + n } }, ?_, ?_⟩
    · unfold Pager.alloc
      rw [Exec.read_bind, hm]
      simp only [hu, if_neg hlt]
      rfl
    · exact
        { h with
          rep := fun o ho => by
            rcases Multiset.mem_cons.1 ho with rfl | ho
            · intro p h1 h2 hkeep
              have hpos : 0 < runCount (s.metaStruct.pageCount, n) p :=
                (runCount_pos_iff _ _).2 ⟨h1, h2⟩
              have := (h.kept p hkeep).2
              rw [havail] at this
              omega
            · exact (h.rep o ho).congr fun p _ => rfl
          count := fun p => by
            have h1 := h.count p
            rw [havail] at h1
            rw [objsCount_cons]
            show runCount (s.metaStruct.pageCount, n) p + _ +
              (runsCount s.pager.freeMap p + if s.metaStruct.pageCount + n ≤ p then 1 else 0) +
              Pager.pendingCount s.pager.pendingMap p = _
            omega
          kept := fun p hp => by
            have h1 := (h.kept p hp).2
            rw [havail] at h1
            refine ⟨(h.kept p hp).1, ?_⟩
            show (runsCount s.pager.freeMap p + if s.metaStruct.pageCount + n ≤ p then 1 else 0) = 0
            omega
          freeIn := fun r hr => Nat.le_trans (h.freeIn r hr) (Nat.le_add_right _ _)
          drawnIn := fun r hr => Nat.le_trans (h.drawnIn r hr) (Nat.le_add_right _ _)
          pendingIn := h.pendingIn.mono (Nat.le_add_right _ _)
          info := by
            show { s.metaStruct with pageCount := s.metaStruct.pageCount + n } = _
            rw [hinfo]
          grown := Nat.le_trans h.grown (Nat.le_add_right _ _)
          room := by
            show s.metaStruct.pageCount + n + b ≤ kPageMaxCount
            omega }

/-- Forgetting what a run is for. -/
theorem toJunk {q n : Nat} (h : Own Γ b r (o ::ₘ O) s)
    (ho : ∀ p, objCount Γ.P o p = runCount (q, n) p) : Own Γ b r (.junk q n ::ₘ O) s :=
  h.replace_one (fun p => (ho p).symm) trivial

/-- A non-empty run of an object lies in the file. -/
theorem run_le {q n : Nat} (h : Own Γ b r (o ::ₘ O) s)
    (ho : ∀ p, objCount Γ.P o p = runCount (q, n) p)
    (hn : 0 < n) : 2 ≤ q ∧ q + n ≤ s.metaStruct.pageCount := by
  have h1 : 0 < objCount Γ.P o q := by
    rw [ho]
    exact (runCount_pos_iff _ _).2 ⟨Nat.le_refl _, show q < q + n by omega⟩
  have h2 : 0 < objCount Γ.P o (q + n - 1) := by
    rw [ho]
    exact (runCount_pos_iff _ _).2 ⟨show q ≤ _ by omega, show _ < q + n by omega⟩
  have h3 := (h.page_lt h1).1
  have h4 := (h.page_lt h2).2
  omega

theorem splitJunk {q m n : Nat} (h : Own Γ b r (.junk q (m + n) ::ₘ O) s) :
    Own Γ b r (.junk q m ::ₘ .junk (q + m) n ::ₘ O) s := by
  rw [← Multiset.singleton_add] at h
  have := h.replace (.junk q m ::ₘ .junk (q + m) n ::ₘ 0) (fun p => ?_) fun o ho => ?_
  · simpa using this
  · simp only [objsCount_cons, objsCount_zero, objCount]
    simp only [objsCount, Multiset.map_singleton, Multiset.sum_singleton, objCount, runCount_add]
    omega
  · rcases Multiset.mem_cons.1 ho with rfl | ho
    · trivial
    · obtain rfl : o = .junk (q + m) n := by simpa using ho
      trivial

/-- Freeing a run makes it pending for the transaction. -/
theorem free {q n : Nat} (h : Own Γ b r (.junk q n ::ₘ O) s)
    (hin : q + n ≤ s.metaStruct.pageCount) :
    ∃ s', Pager.free q n s = (.ok (), s') ∧ Own Γ b r O s' ∧ s'.pager.pages = s.pager.pages := by
  have hroom := h.room
  have hq : q ≠ kPageInvalidId := by
    unfold kPageInvalidId
    unfold kPageMaxCount at hroom
    omega
  refine ⟨{ s with pager := { s.pager with
    pendingMap := Pager.addPending s.metaStruct.txid (q, n) s.pager.pendingMap } }, ?_, ?_, rfl⟩
  · unfold Pager.free assert
    rw [Exec.require_bind hq]
    rfl
  · exact
      { h with
        rep := fun o ho => (h.rep o (Multiset.mem_cons_of_mem ho)).congr fun p _ => rfl
        count := fun p => by
          have := h.count p
          rw [objsCount_cons] at this
          show _ + availCount s p + Pager.pendingCount (Pager.addPending _ _ _) p = _
          rw [Pager.pendingCount_addPending]
          simp only [objCount] at this
          omega
        pending := fun t p ht => by
          show Pager.pendingCountAt (Pager.addPending _ _ _) t p = _
          rw [Pager.pendingCountAt_addPending, h.txid_eq, if_neg (fun he => ht he.symm),
            Nat.add_zero]
          exact h.pending t p ht
        pendingIn := h.pendingIn.addPending _ hin
        sorted := h.sorted.addPending _ _ }

/-- A freshly allocated page, about to be written. -/
theorem area_page {q : Nat} (h : Own Γ b r (.area q 1 ::ₘ O) s) :
    ¬ Γ.keep q ∧ Own Γ b r (.page q (s.pager.pages q) ::ₘ O) s :=
  ⟨h.rep _ (Multiset.mem_cons_self _ _) q (Nat.le_refl _) (Nat.lt_succ_self _),
    h.replace_one (fun _ => rfl) rfl⟩

/-- Writing a record into a freshly allocated run. -/
theorem writeRecord {q : Nat} {key value : Bytes}
    (h : Own Γ b r (.area q (Pager.getPageCount Γ.P (key.length + value.length)) ::ₘ O) s) :
    Own Γ b r (.run q (key ++ value) ::ₘ O)
      { s with pager := Pager.writeRecord Γ.P s.pager q key value } := by
  have hfresh := h.rep _ (Multiset.mem_cons_self _ _)
  have hpages : ∀ p, runCount (q, Pager.getPageCount Γ.P (key.length + value.length)) p = 0 →
      (Pager.writeRecord Γ.P s.pager q key value).pages p = s.pager.pages p := fun p hp => by
    refine Pager.writeRecord_pages Γ.P_pos s.pager q key value ?_
    rw [runCount_mk] at hp
    split_ifs at hp
    omega
  refine
    { h with
      rep := fun o ho => ?_
      count := fun p => ?_
      kept := fun p hp => ?_
      pending := fun t p ht => ?_
      drawn := fun p => ?_
      freeIn := ?_
      drawnIn := ?_
      pendingIn := ?_
      sorted := ?_ }
  · rcases Multiset.mem_cons.1 ho with rfl | ho
    · show Pager.readBytes _ _ _ _ = _
      rw [List.length_append]
      exact Pager.readBytes_writeRecord Γ.P_pos s.pager q key value
    -- The run is disjoint from every other object, so writing it changes none of them.
    · refine (h.rep o (Multiset.mem_cons_of_mem ho)).congr fun p hp => hpages p ?_
      by_contra hne
      have h1 := (h.disjoint (p := p) (Nat.pos_of_ne_zero hne)).1
      have h2 := objCount_le_objsCount Γ.P ho p
      omega
  · have := h.count p
    simp only [objsCount_cons, objCount, List.length_append] at this ⊢
    simpa [availCount] using this
  · have hnot : runCount (q, Pager.getPageCount Γ.P (key.length + value.length)) p = 0 := by
      by_contra hne
      obtain ⟨h1, h2⟩ := (runCount_pos_iff _ _).1 (Nat.pos_of_ne_zero hne)
      exact hfresh p h1 h2 hp
    refine ⟨(hpages p hnot).trans (h.kept p hp).1, ?_⟩
    simpa [availCount] using (h.kept p hp).2
  · simpa using h.pending t p ht
  · simpa using h.drawn p
  · simpa using h.freeIn
  · simpa using h.drawnIn
  · simpa using h.pendingIn
  · simpa using h.sorted

end Own

end AtomKV
