import AtomKV.BranchUpdate
import AtomKV.LeafRefinement

/-!
# A branch is a list of keys between children

`BranchNode` on a page that was just built, driven by any sequence of its member functions. The
abstract value is the alternating list child, key, child, ..., child, written as the list of its
keys and the list of its children, the tail child last. Each operation names a key and one of the
two children beside it. A run follows the list unless it meets one of two states: the update of a
key in overflow pages, after which `space_used` is wrong if no compaction failed before, or the
insertion of an empty key whose slot would end at the end of the page.
-/

set_option autoImplicit false

namespace AtomKV

/-- The keys of a branch and the children around them. -/
structure Fence where
  keys : List Bytes
  kids : List Nat

/-- The member functions of `BranchNode` that write, with their arguments. -/
inductive BranchOp where
  | insert (slotId : Nat) (key : Bytes) (child : Nat) (isRightChild : Bool)
  | append (key : Bytes) (child : Nat) (isRightChild : Bool)
  | updateKey (slotId : Nat) (key : Bytes)
  | update (slotId : Nat) (key : Bytes) (child : Nat) (isRightChild : Bool)
  | delete (slotId : Nat) (rightChild : Bool)
  | pop (rightChild : Bool)
  | setLeftChild (slotId : Nat) (child : Nat)
  | setRightChild (slotId : Nat) (child : Nat)
  | setTailChild (child : Nat)

namespace BranchOp

/-- The call. A function without a result counts as carried out when it returns. -/
def exec (env : Env) (pgid : Nat) : BranchOp → TxM Bool
  | .insert slotId key child isRightChild => BranchNode.insert env pgid
      slotId key child isRightChild
  | .append key child isRightChild => BranchNode.append env pgid key child isRightChild
  | .updateKey slotId key => BranchNode.updateKey env pgid slotId key
  | .update slotId key child isRightChild => BranchNode.update env pgid
      slotId key child isRightChild
  | .delete slotId rightChild => do
      BranchNode.delete env pgid slotId rightChild
      return true
  | .pop rightChild => do
      BranchNode.pop env pgid rightChild
      return true
  | .setLeftChild slotId child => do
      BranchNode.setLeftChild pgid slotId child
      return true
  | .setRightChild slotId child => do
      BranchNode.setRightChild pgid slotId child
      return true
  | .setTailChild child => do
      BranchNode.setTailChild pgid child
      return true

/-! ## The list -/

/-- The space that the keys take. -/
def keysSpace (P : Nat) (keys : List Bytes) : Nat := (keys.map fun key => recordStub P key []).sum

/-- Header, padding, slots and keys fit into the page with one key more. -/
def Room (P : Nat) (keys : List Bytes) (key : Bytes) : Prop :=
  18 + 8 * (keys.length + 1) + keysSpace P keys + recordStub P key [] ≤ P

/-- The call is carried out: the key fits after compaction, or none is stored. -/
def Accepts (P : Nat) (fence : Fence) : BranchOp → Prop
  | .insert _ key _ _ => Room P fence.keys key
  | .append key _ _ => Room P fence.keys key
  | .updateKey slotId key => Room P (fence.keys.eraseIdx slotId) key
  | .update slotId key _ _ => Room P (fence.keys.eraseIdx slotId) key
  | _ => True

/-- What the call makes of the list. -/
def next (fence : Fence) : BranchOp → Fence
  | .insert slotId key child right =>
      ⟨fence.keys.insertIdx slotId key, fence.kids.insertIdx (childAt slotId right) child⟩
  | .append key child right =>
      ⟨fence.keys ++ [key], fence.kids.insertIdx (childAt fence.keys.length right) child⟩
  | .updateKey slotId key => ⟨fence.keys.set slotId key, fence.kids⟩
  | .update slotId key child right =>
    ⟨fence.keys.set slotId key, fence.kids.set (childAt slotId right) child⟩
  | .delete slotId right => ⟨fence.keys.eraseIdx slotId, fence.kids.eraseIdx (childAt slotId right)⟩
  | .pop right => ⟨fence.keys.dropLast, fence.kids.eraseIdx (childAt (fence.keys.length - 1) right)⟩
  | .setLeftChild slotId child => ⟨fence.keys, fence.kids.set slotId child⟩
  | .setRightChild slotId child => ⟨fence.keys, fence.kids.set (slotId + 1) child⟩
  | .setTailChild child => ⟨fence.keys, fence.kids.set fence.keys.length child⟩

/-- What the call makes of the numbers of the branch when it is carried out. -/
def account (P : Nat) : BranchOp → Ledger → Ledger
  | .insert slotId key _ _, a => a.insert P slotId (recordStub P key []) key.length
  | .append key _ _, a => a.insert P a.cells.length (recordStub P key []) key.length
  | .updateKey slotId key, a => a.update P slotId (recordStub P key []) key.length
  | .update slotId key _ _, a => a.update P slotId (recordStub P key []) key.length
  | .delete slotId _, a => a.delete slotId
  | .pop _, a => a.delete (a.cells.length - 1)
  | _, a => a

/-- The list under the calls. -/
def behaviour (P : Nat) : Exec.Behaviour BranchOp Fence :=
  ⟨Accepts P, fun fence op fence' => fence' = next fence op⟩

/-- The slot exists, and the size of the key is one that `StoreRecord` accepts. -/
def ValidAt (P : Nat) (count : Nat) : BranchOp → Prop
  | .insert slotId key _ _ => slotId ≤ count ∧ Admissible P key []
  | .append key _ _ => Admissible P key []
  | .updateKey slotId key => slotId < count ∧ Admissible P key []
  | .update slotId key _ _ => slotId < count ∧ Admissible P key []
  | .delete slotId _ => slotId < count
  | .pop _ => 0 < count
  | .setLeftChild slotId _ => slotId ≤ count
  | .setRightChild slotId _ => slotId < count
  | .setTailChild _ => True

/-- The call is valid on the page `pgid`. -/
def Valid (P : Nat) (pgid : Nat) (op : BranchOp) (s : TxState) : Prop :=
  ∀ n, s.pager.pages pgid = .node n → op.ValidAt P n.count

/-! ## The two bad states -/

/-- The old key is in overflow pages, and the new one fits in its place. -/
def Replaces (P : Nat) (n : Node) (slotId : Nat) (key : Bytes) : Prop :=
  ∃ slot run, n.slots[slotId]? = some slot ∧ slot.record = .overflow run ∧
    n.slotBytes + (n.spaceUsed - kOverflowRecordSize) + recordStub P key [] ≤ P

/-- The call meets a bad state. -/
def SpoilsAt (P : Nat) (n : Node) : BranchOp → Prop
  | .insert _ key _ _ => n.FillsUp P key []
  | .append key _ _ => n.FillsUp P key []
  | .updateKey slotId key => Replaces P n slotId key
  | .update slotId key _ _ => Replaces P n slotId key
  | _ => False

def Spoils (P : Nat) (pgid : Nat) (op : BranchOp) (s : TxState) : Prop :=
  ∃ n, s.pager.pages pgid = .node n ∧ op.SpoilsAt P n

instance (P : Nat) (n : Node) (op : BranchOp) : Decidable (op.SpoilsAt P n) :=
  match op with
  | .insert _ key _ _ => inferInstanceAs (Decidable (n.FillsUp P key []))
  | .append key _ _ => inferInstanceAs (Decidable (n.FillsUp P key []))
  | .updateKey _ _ => inferInstanceAs (Decidable (∃ _ _, _ ∧ _ ∧ _))
  | .update _ _ _ _ => inferInstanceAs (Decidable (∃ _ _, _ ∧ _ ∧ _))
  | .delete _ _ => .isFalse id
  | .pop _ => .isFalse id
  | .setLeftChild _ _ => .isFalse id
  | .setRightChild _ _ => .isFalse id
  | .setTailChild _ => .isFalse id

instance (P : Nat) (pgid : Nat) (op : BranchOp) (s : TxState) : Decidable (op.Spoils P pgid s) :=
  inferInstanceAs (Decidable (∃ _, _ ∧ _))

/-- The overflow pages that the call may take. -/
def room (P : Nat) : BranchOp → ℕ
  | .insert _ key _ _ => recordPages P key []
  | .append key _ _ => recordPages P key []
  | .updateKey _ key => recordPages P key []
  | .update _ key _ _ => recordPages P key []
  | _ => 0

/-- The overflow pages that the calls may take. -/
def roomFor (P : Nat) (ops : List BranchOp) : ℕ := (ops.map (room P)).sum

end BranchOp

/-- **What a branch shows.** There is one child more than keys; the reading functions return the
keys and the children beside each of them, and the header is in order. -/
structure BranchShows (env : Env) (pgid : Nat) (fence : Fence) (s : TxState) : Prop where
  length : fence.kids.length = fence.keys.length + 1
  count : Node.countOf pgid s = (.ok fence.keys.length, s)
  key : ∀ i key, fence.keys[i]? = some key → Node.getKey env pgid i s = (.ok key, s)
  leftChild : ∀ i c, fence.kids[i]? = some c → BranchNode.getLeftChild pgid i s = (.ok c, s)
  rightChild : ∀ i c, fence.kids[i + 1]? = some c → BranchNode.getRightChild pgid i s = (.ok c, s)
  tailChild : ∀ c, fence.kids.getLast? = some c → BranchNode.getTailChild pgid s = (.ok c, s)
  header : ∃ n, s.pager.pages pgid = .node n ∧ n.isLeaf = false ∧ Node.Sized env.pageSize n

namespace BranchShows

variable {env : Env} {pgid : Nat} {fence fence' : Fence} {s : TxState}

/-- A branch shows one list. -/
theorem unique (h : BranchShows env pgid fence s) (h' : BranchShows env pgid fence' s) :
    fence = fence' := by
  obtain ⟨keys, kids⟩ := fence
  obtain ⟨keys', kids'⟩ := fence'
  have hlen : keys.length = keys'.length :=
    Except.ok.inj (Prod.mk.inj (h.count.symm.trans h'.count)).1
  have hkids : kids.length = kids'.length := by
    have h1 := h.length
    have h2 := h'.length
    simp only at h1 h2
    omega
  obtain rfl : keys = keys' := List.ext_getElem hlen fun i hi hi' => Except.ok.inj (Prod.mk.inj
    ((h.key i _ (List.getElem?_eq_getElem hi)).symm.trans
      (h'.key i _ (List.getElem?_eq_getElem hi')))).1
  obtain rfl : kids = kids' := List.ext_getElem hkids fun i hi hi' => Except.ok.inj (Prod.mk.inj
    ((h.leftChild i _ (List.getElem?_eq_getElem hi)).symm.trans
      (h'.leftChild i _ (List.getElem?_eq_getElem hi')))).1
  rfl

end BranchShows

/-- The keys that are shown for the records of a branch. -/
def keysOf (es : List Entry) : List Bytes := es.map Entry.key

section Keys

variable {P : Nat} {es es₁ es₂ : List Entry} {e : Entry} {key : Bytes}

theorem length_keysOf (es : List Entry) : (keysOf es).length = es.length := List.length_map _

theorem keysSpace_keysOf (hvalue : ∀ e ∈ es, e.value = []) :
    BranchOp.keysSpace P (keysOf es) = entriesSpace P es := by
  unfold BranchOp.keysSpace keysOf entriesSpace
  rw [List.map_map]
  refine congrArg List.sum (List.map_congr_left fun e he => ?_)
  show Node.stubSize P (e.key.length + ([] : Bytes).length) =
    Node.stubSize P (e.key.length + e.value.length)
  rw [hvalue e he]

/-- The room in the list is the room in the node. -/
theorem BranchOp.room_iff_fits (hP : PageRange P) (hvalue : ∀ e ∈ es, e.value = []) (key : Bytes) :
    BranchOp.Room P (keysOf es) key ↔ Fits P es key [] := by
  have hmin := hP.min
  unfold BranchOp.Room Fits fill
  rw [keysSpace_keysOf hvalue, length_keysOf]
  omega

theorem keysOf_insert (es₁ es₂ : List Entry) (e : Entry) :
    keysOf (es₁ ++ e :: es₂) = (keysOf (es₁ ++ es₂)).insertIdx es₁.length e.key := by
  rw [← length_keysOf es₁]
  unfold keysOf
  rw [List.map_append, List.map_append, ListAt.insertIdx_length]
  rfl

theorem keysOf_erase (es₁ es₂ : List Entry) (e : Entry) :
    keysOf (es₁ ++ es₂) = (keysOf (es₁ ++ e :: es₂)).eraseIdx es₁.length := by
  rw [← length_keysOf es₁]
  unfold keysOf
  rw [List.map_append, List.map_append, List.map_cons, ListAt.eraseIdx_length]

theorem keysOf_set (es₁ es₂ : List Entry) (e e' : Entry) :
    keysOf (es₁ ++ e' :: es₂) = (keysOf (es₁ ++ e :: es₂)).set es₁.length e'.key := by
  rw [← length_keysOf es₁]
  unfold keysOf
  rw [List.map_append, List.map_append, List.map_cons, List.map_cons, ListAt.set_length]

/-- The bad update, on a branch with known keys. -/
theorem BranchOp.replaces_iff (hP : PageRange P) {t : Nat} {kids : List Nat} {n : Node}
    (h : NodeRep P (.branch t (es₁ ++ e :: es₂) kids) n) (key : Bytes) :
    BranchOp.Replaces P n es₁.length key ↔
    Node.maxInline P < e.size ∧ Fits P (es₁ ++ es₂) key [] := by
  obtain ⟨l₁, slot, l₂, hs⟩ := h.around rfl
  have hfits := h.fits_rest_iff hP rfl key []
  constructor
  · rintro ⟨slot', run, hslot', hrun, hfit⟩
    obtain rfl : slot = slot' := Option.some.inj (hs.getElem?.symm.trans hslot')
    have hover : Node.maxInline P < e.size := by
      by_contra hover
      rw [hs.inlined hover] at hrun
      cases hrun
    have hstub : e.stub P = kOverflowRecordSize := if_pos hover
    exact ⟨hover, hfits.2 (by rw [hstub]; exact hfit)⟩
  · rintro ⟨hover, hfit⟩
    have hstub : e.stub P = kOverflowRecordSize := if_pos hover
    refine ⟨slot, e.run, hs.getElem?, hs.overflow hover, ?_⟩
    rw [← hstub]
    exact hfits.1 hfit

/-- The keys but one have no values either. -/
theorem values_rest (hvalue : ∀ e' ∈ es₁ ++ e :: es₂, e'.value = []) :
    ∀ e' ∈ es₁ ++ es₂, e'.value = [] := by
  intro e' he'
  rcases List.mem_append.1 he' with he' | he'
  · exact hvalue e' (List.mem_append_left _ he')
  · exact hvalue e' (List.mem_append_right _ (List.mem_cons_of_mem _ he'))

end Keys

/-! ## One call -/

namespace Own

variable {Γ : PageScope} {b r : ℕ} {O : Multiset Obj} {s : TxState} {q t : Nat}
  {es : List Entry} {kids : List Nat}

/-- A branch that the transaction holds shows its keys and children. -/
theorem branchShows (h : Own Γ b r (.node q (.branch t es kids) ::ₘ O) s) :
    BranchShows Γ.env q ⟨keysOf es, kids⟩ s := by
  have hm : Obj.node q (.branch t es kids) ∈ Obj.node q (.branch t es kids) ::ₘ O :=
    Multiset.mem_cons_self _ _
  obtain ⟨n, hrep, -, hpage, -⟩ := h.read_of_mem hm
  have hlen := kids_length hrep
  refine ⟨?_, ?_, ?_, ?_, ?_, ?_, n, hpage, hrep.isLeaf_eq, hrep.sized⟩
  · rw [length_keysOf]
    exact hlen
  · rw [length_keysOf]
    exact h.countOf hm
  · intro i key hi
    unfold keysOf at hi
    rw [List.getElem?_map] at hi
    obtain ⟨e, he, rfl⟩ := Option.map_eq_some_iff.1 hi
    exact h.getKey hm he
  · intro i c hi
    exact h.getLeftChild hm hi
  · intro i c hi
    exact h.getRightChild hm hi
  · intro c hc
    obtain ⟨ks, hks⟩ := List.getLast?_eq_some_iff.1 hc
    obtain rfl : kids = ks ++ [c] := hks
    exact h.getTailChild hm

/-- Appending is inserting behind the last slot. -/
theorem branchAppend_eq (h : Own Γ b r (.node q (.branch t es kids) ::ₘ O) s) (key : Bytes)
    (child : Nat) (isRightChild : Bool) : BranchNode.append Γ.env q key child isRightChild s =
      BranchNode.insert Γ.env q es.length key child isRightChild s := by
  unfold BranchNode.append
  rw [Exec.bind_of_ok (h.countOf (Multiset.mem_cons_self _ _))]

/-- Popping is deleting the last slot. -/
theorem branchPop_eq (h : Own Γ b r (.node q (.branch t es kids) ::ₘ O) s) (rightChild : Bool) :
    BranchNode.pop Γ.env q rightChild s =
      BranchNode.delete Γ.env q (es.length - 1) rightChild s := by
  unfold BranchNode.pop
  rw [Exec.bind_of_ok (h.countOf (Multiset.mem_cons_self _ _))]

end Own

/-- The invariant of a run: the transaction holds the branch with the keys and children of the list,
and has room for the overflow pages that the calls to come may take. -/
def BranchRun (Γ : PageScope) (b r : ℕ) (q : Nat) (ops : List BranchOp) (fence : Fence)
    (s : TxState) : Prop :=
  ∃ t es kids O, Own Γ (b + BranchOp.roomFor Γ.P ops) r (.node q (.branch t es kids) ::ₘ O) s ∧
    fence = ⟨keysOf es, kids⟩

namespace BranchRun

variable {Γ : PageScope} {b r : ℕ} {q : Nat} {ops : List BranchOp} {op : BranchOp} {fence : Fence}
  {s : TxState} {key : Bytes} {child : Nat} {isRightChild : Bool}

theorem shows (h : BranchRun Γ b r q ops fence s) : BranchShows Γ.env q fence s := by
  obtain ⟨t, es, kids, O, hown, rfl⟩ := h
  exact hown.branchShows

/-- The branch with its keys and children, when a call is due. -/
theorem take (h : BranchRun Γ b r q (op :: ops) fence s) :
    ∃ t es kids O n, Own Γ (b + BranchOp.roomFor Γ.P ops + op.room Γ.P) r
      (.node q (.branch t es kids) ::ₘ O) s ∧ fence = ⟨keysOf es, kids⟩ ∧
      s.pager.pages q = .node n ∧ NodeRep Γ.P (.branch t es kids) n := by
  obtain ⟨t, es, kids, O, hown, hfence⟩ := h
  obtain ⟨n, hrep, -, hpage, -⟩ := hown.read_node
  refine ⟨t, es, kids, O, n, hown.room_mono _ ?_, hfence, hpage, hrep⟩
  unfold BranchOp.roomFor
  rw [List.map_cons, List.sum_cons]
  omega

/-- A call in a bad state fails an assertion, or leaves a page that shows no list. -/
theorem spoiled (hq : ¬ Γ.keep q) (h : BranchRun Γ b r q (op :: ops) fence s)
    (hvalid : op.Valid Γ.P q s) (hbad : op.Spoils Γ.P q s) {ok : Bool} {s' : TxState}
    (hrun : op.exec Γ.env q s = (.ok ok, s')) (fence' : Fence) :
    ¬ BranchShows Γ.env q fence' s' := by
  obtain ⟨t, es, kids, O, n, hown, rfl, hpage, hrep⟩ := h.take
  obtain ⟨n', hpage', hspoil⟩ := hbad
  obtain rfl : n = n' := Page.node.inj (hpage.symm.trans hpage')
  have hcount : n.count = es.length := hrep.count_eq
  have hv := hvalid n hpage
  have hmiscount : Miscounted q s' → ¬ BranchShows Γ.env q fence' s' := by
    rintro ⟨n₁, hpage₁, -, hspace⟩ hshows
    obtain ⟨n₂, hpage₂, -, hsized⟩ := hshows.header
    obtain rfl : n₁ = n₂ := Page.node.inj (hpage₁.symm.trans hpage₂)
    exact hspace hsized.used
  cases op with
  | insert slotId key child right =>
    obtain ⟨hle, -⟩ := hv
    obtain ⟨es₁, es₂, rfl, rfl⟩ := ListAt.exists_split_le (hcount ▸ hle)
    obtain ⟨hfit, hslots⟩ := (hrep.fillsUp_iff Γ.hP key []).1 hspoil
    obtain ⟨err, s₁, herror⟩ := hown.branchInsert_error hq hfit hslots child right
    cases hrun.symm.trans herror
  | append key child right =>
    have happend := hown.branchAppend_eq key child right
    obtain ⟨hfit, hslots⟩ := (hrep.fillsUp_iff Γ.hP key []).1 hspoil
    rw [← List.append_nil es] at hown hfit hslots
    obtain ⟨err, s₁, herror⟩ := hown.branchInsert_error hq hfit hslots child right
    cases hrun.symm.trans (happend.trans herror)
  | updateKey slotId key =>
    obtain ⟨hlt, hadm⟩ := hv
    obtain ⟨es₁, e, es₂, rfl, rfl⟩ := ListAt.exists_split_lt (hcount ▸ hlt)
    obtain ⟨hover, hfit⟩ := (BranchOp.replaces_iff Γ.hP hrep key).1 hspoil
    exact hmiscount (hown.branchUpdateKey_spoils hq hadm hover hfit hrun).2.miscounted
  | update slotId key child right =>
    obtain ⟨hlt, hadm⟩ := hv
    obtain ⟨es₁, e, es₂, rfl, rfl⟩ := ListAt.exists_split_lt (hcount ▸ hlt)
    obtain ⟨hover, hfit⟩ := (BranchOp.replaces_iff Γ.hP hrep key).1 hspoil
    obtain ⟨success, s₁, hupdate, hrest⟩ := Exec.bind_eq_ok hrun
    have hspoiled := (hown.branchUpdateKey_spoils hq hadm hover hfit hupdate).2.miscounted
    refine hmiscount ?_
    cases success with
    | false =>
      obtain rfl := (Prod.mk.inj hrest).2
      exact hspoiled
    | true =>
      -- the child goes where it belongs, the count stays wrong
      obtain ⟨u, s₂, hput, hreturn⟩ :=
        Exec.bind_eq_ok ((BranchNode.update_stored hupdate child right).symm.trans hrun)
      obtain rfl := (Prod.mk.inj hreturn).2
      have hinv : Miscounted q (BranchNode.putChild q es₁.length child right s₁).2 :=
        hspoiled.putChild
      rw [hput] at hinv
      exact hinv
  | delete slotId right => exact hspoil.elim
  | pop right => exact hspoil.elim
  | setLeftChild slotId child => exact hspoil.elim
  | setRightChild slotId child => exact hspoil.elim
  | setTailChild child => exact hspoil.elim

/-- An insertion in front of a key or at the end, as `Insert` and `Append` make it. -/
theorem insert_step (hq : ¬ Γ.keep q) {t : Nat} {es₁ es₂ : List Entry} {kids : List Nat}
    {O : Multiset Obj} {n : Node}
    (h : Own Γ (b + BranchOp.roomFor Γ.P ops + recordPages Γ.P key []) r
      (.node q (.branch t (es₁ ++ es₂) kids) ::ₘ O) s)
    (hrep : NodeRep Γ.P (.branch t (es₁ ++ es₂) kids) n) (hadm : Admissible Γ.P key [])
    (hclean : ¬ n.FillsUp Γ.P key []) (hroom : BranchOp.Room Γ.P (keysOf (es₁ ++ es₂)) key) :
    ∃ s', BranchNode.insert Γ.env q es₁.length key child isRightChild s = (.ok true, s') ∧
      BranchRun Γ b r q ops ⟨(keysOf (es₁ ++ es₂)).insertIdx es₁.length key,
        kids.insertIdx (childAt es₁.length isRightChild) child⟩ s' ∧
      Books q (fun a => a.insert Γ.P es₁.length (recordStub Γ.P key []) key.length) s s' := by
  have hfit := (BranchOp.room_iff_fits Γ.hP hrep.body.2.1 key).1 hroom
  have hslots : SlotFits Γ.P (es₁ ++ es₂) := by
    by_contra hslots
    exact hclean ((hrep.fillsUp_iff Γ.hP key []).2 ⟨hfit, hslots⟩)
  obtain ⟨_, s', hrun, rfl, ⟨bucket, run, h'⟩, hbooks⟩ :=
    h.branchInsert_ok hq hadm hfit hslots child isRightChild
  refine ⟨s', hrun, ⟨t, _, _, O, h', ?_⟩, hbooks⟩
  rw [keysOf_insert]

/-- An update of a key, as both forms of `Update` make it. -/
theorem update_step (hq : ¬ Γ.keep q) {t : Nat} {es₁ es₂ : List Entry} {e : Entry} {kids : List Nat}
    {O : Multiset Obj} {n : Node}
    (h : Own Γ (b + BranchOp.roomFor Γ.P ops + recordPages Γ.P key []) r
      (.node q (.branch t (es₁ ++ e :: es₂) kids) ::ₘ O) s)
    (hrep : NodeRep Γ.P (.branch t (es₁ ++ e :: es₂) kids) n) (hadm : Admissible Γ.P key [])
    (hclean : ¬ BranchOp.Replaces Γ.P n es₁.length key)
    (hroom : BranchOp.Room Γ.P ((keysOf (es₁ ++ e :: es₂)).eraseIdx es₁.length) key) :
    ∃ s' e' O', BranchNode.updateKey Γ.env q es₁.length key s = (.ok true, s') ∧ e'.key = key ∧
      Own Γ (b + BranchOp.roomFor Γ.P ops) r (.node q (.branch t (es₁ ++ e' :: es₂) kids) ::ₘ O')
        s' ∧
      Books q (fun a => a.update Γ.P es₁.length (recordStub Γ.P key []) key.length) s s' := by
  rw [← keysOf_erase, BranchOp.room_iff_fits Γ.hP (values_rest hrep.body.2.1)] at hroom
  have hinline : ¬ Node.maxInline Γ.P < e.size := fun hover =>
    hclean ((BranchOp.replaces_iff Γ.hP hrep key).2 ⟨hover, hroom⟩)
  obtain ⟨_, s', hrun, rfl, ⟨bucket, run, h'⟩, hbooks⟩ := h.branchUpdateKey_ok hq hadm hinline hroom
  exact ⟨s', ⟨key, [], bucket, run⟩, _, hrun, rfl, h', hbooks⟩

/-- A call for which there is room is carried out. -/
theorem accepted (hq : ¬ Γ.keep q) (h : BranchRun Γ b r q (op :: ops) fence s)
    (hvalid : op.Valid Γ.P q s) (hclean : ¬ op.Spoils Γ.P q s) (haccept : op.Accepts Γ.P fence) :
    ∃ s', op.exec Γ.env q s = (.ok true, s') ∧ BranchRun Γ b r q ops (op.next fence) s' ∧
      Books q (op.account Γ.P) s s' := by
  obtain ⟨t, es, kids, O, n, hown, rfl, hpage, hrep⟩ := h.take
  have hcount : n.count = es.length := hrep.count_eq
  have hcells : n.ledger.cells.length = es.length := n.ledger_length.trans hcount
  have hleaf : n.isLeaf = false := hrep.isLeaf_eq
  have hv := hvalid n hpage
  have hsafe : ¬ op.SpoilsAt Γ.P n := fun hspoil => hclean ⟨n, hpage, hspoil⟩
  cases op with
  | insert slotId key child right =>
    obtain ⟨hle, hadm⟩ := hv
    obtain ⟨es₁, es₂, rfl, rfl⟩ := ListAt.exists_split_le (hcount ▸ hle)
    exact insert_step hq hown hrep hadm hsafe haccept
  | append key child right =>
    -- `Append` is `Insert` at the end, in a list that is split with nothing behind it.
    have hroom : BranchOp.Room Γ.P (keysOf es) key := haccept
    have happend := hown.branchAppend_eq key child right
    rw [← List.append_nil es] at hown hrep hroom
    obtain ⟨s', hrun, hnext, hbooks⟩ := insert_step hq hown hrep hv hsafe hroom
    refine ⟨s', happend.trans hrun, ?_, hbooks.congr hpage ?_⟩
    · rw [List.append_nil, ← length_keysOf es, List.insertIdx_length_self] at hnext
      exact hnext
    · show _ = n.ledger.insert Γ.P n.ledger.cells.length (recordStub Γ.P key []) key.length
      rw [hcells]
  | updateKey slotId key =>
    obtain ⟨hlt, hadm⟩ := hv
    obtain ⟨es₁, e, es₂, rfl, rfl⟩ := ListAt.exists_split_lt (hcount ▸ hlt)
    obtain ⟨s', e', O', hrun, rfl, h', hbooks⟩ := update_step hq hown hrep hadm hsafe haccept
    refine ⟨s', hrun, ⟨t, _, _, O', h', ?_⟩, hbooks⟩
    rw [keysOf_set es₁ es₂ e e']
    rfl
  | update slotId key child right =>
    obtain ⟨hlt, hadm⟩ := hv
    obtain ⟨es₁, e, es₂, rfl, rfl⟩ := ListAt.exists_split_lt (hcount ▸ hlt)
    -- First the key, as `UpdateKey` does it, and then the child.
    obtain ⟨s₁, e', O', hrun, rfl, h₁, hbooks⟩ := update_step hq hown hrep hadm hsafe haccept
    obtain ⟨s', hset, h'⟩ := h₁.putChild (k := es₁.length) hq
      (by rw [List.length_append, List.length_cons]; omega) child right
    obtain ⟨n₁, hrep₁, -, hpage₁, -⟩ := h₁.read_node
    have hbooks' := BranchAt.books (fun _ => BranchAt.putChild) hpage₁ hrep₁.isLeaf_eq hset
    refine ⟨s', ?_, ⟨t, _, _, O', h', ?_⟩, hbooks.trans hbooks'⟩
    · refine (BranchNode.update_stored hrun child right).trans ?_
      rw [Exec.bind_of_ok hset]
      rfl
    · rw [keysOf_set es₁ es₂ e e']
      rfl
  | delete slotId right =>
    obtain ⟨es₁, e, es₂, rfl, rfl⟩ := ListAt.exists_split_lt (hcount ▸ hv)
    obtain ⟨s', hrun, h', hbooks⟩ := hown.branchDelete_ok hq right
    refine ⟨s', ?_, ⟨t, _, _, O, h', ?_⟩, hbooks⟩
    · show (do BranchNode.delete Γ.env q es₁.length right; return true : TxM Bool) s = _
      rw [Exec.bind_of_ok hrun]
      rfl
    · rw [keysOf_erase es₁ es₂ e]
      rfl
  | pop right =>
    -- `Pop` is allowed on a node that holds a key only, so there is a last one.
    obtain ⟨es₁, e, rfl⟩ := (List.eq_nil_or_concat' es).resolve_left fun hnil => by
      rw [hnil] at hcount
      exact absurd hv (by rw [BranchOp.ValidAt, hcount]; exact Nat.lt_irrefl 0)
    obtain ⟨s', hrun, h', hbooks⟩ := hown.branchDelete_ok hq right
    rw [List.append_nil] at h'
    have hlast : (es₁ ++ [e]).length - 1 = es₁.length := by simp
    refine ⟨s', ?_, ⟨t, _, _, O, h', ?_⟩, hbooks.congr hpage ?_⟩
    · show (do BranchNode.pop Γ.env q right; return true : TxM Bool) s = _
      rw [Exec.bind_of_ok ((hown.branchPop_eq right).trans (hlast ▸ hrun))]
      rfl
    · have hkeys : (keysOf (es₁ ++ [e])).length - 1 = es₁.length := by rw [length_keysOf, hlast]
      show Fence.mk (keysOf (es₁ ++ [e])).dropLast
        (kids.eraseIdx (childAt ((keysOf (es₁ ++ [e])).length - 1) right)) = _
      rw [hkeys]
      unfold keysOf
      rw [List.map_append, List.map_singleton, List.dropLast_concat]
    · show _ = n.ledger.delete (n.ledger.cells.length - 1)
      rw [hcells, hlast]
  | setLeftChild slotId child =>
    obtain ⟨s', hset, h'⟩ := hown.setChild hq (hcount ▸ hv) child
    refine ⟨s', ?_, ⟨t, _, _, O, h', rfl⟩,
      BranchAt.books (fun _ => BranchAt.setLeftChild) hpage hleaf hset⟩
    show (do BranchNode.setLeftChild q slotId child; return true : TxM Bool) s = _
    rw [Exec.bind_of_ok hset]
    rfl
  | setRightChild slotId child =>
    have hlt : slotId < es.length := hcount ▸ hv
    obtain ⟨s', hset, h'⟩ := hown.setChild hq (show slotId + 1 ≤ es.length from hlt) child
    refine ⟨s', ?_, ⟨t, _, _, O, h', rfl⟩,
      BranchAt.books (fun _ => BranchAt.setLeftChild) hpage hleaf hset⟩
    show (do BranchNode.setRightChild q slotId child; return true : TxM Bool) s = _
    rw [Exec.bind_of_ok ((hown.setRightChild_eq hlt child).trans hset)]
    rfl
  | setTailChild child =>
    -- A branch has one child more than keys, so the tail child is there to be replaced.
    have hkids := hown.kids_length_of_own
    obtain ⟨ks, c, rfl⟩ := (List.eq_nil_or_concat' kids).resolve_left fun hnil => by
      rw [hnil] at hkids
      cases hkids
    obtain ⟨s', hset, h'⟩ := hown.setTailChild hq child
    refine ⟨s', ?_, ⟨t, _, _, O, h', ?_⟩,
      BranchAt.books (fun _ => BranchAt.setTailChild) hpage hleaf hset⟩
    · show (do BranchNode.setTailChild q child; return true : TxM Bool) s = _
      rw [Exec.bind_of_ok hset]
      rfl
    · have hlen : (keysOf es).length = ks.length := by
        rw [List.length_append, List.length_singleton] at hkids
        rw [length_keysOf]
        omega
      show Fence.mk (keysOf es) ((ks ++ [c]).set (keysOf es).length child) = _
      rw [hlen, ListAt.set_length]

/-- A call for which there is no room returns `false` and leaves the state as it was. -/
theorem refused (hq : ¬ Γ.keep q) (h : BranchRun Γ b r q (op :: ops) fence s)
    (hvalid : op.Valid Γ.P q s) (hrefuse : ¬ op.Accepts Γ.P fence) :
    op.exec Γ.env q s = (.ok false, s) ∧ BranchRun Γ b r q ops fence s := by
  obtain ⟨t, es, kids, O, n, hown, rfl, hpage, hrep⟩ := h.take
  have hrest : BranchRun Γ b r q ops ⟨keysOf es, kids⟩ s :=
    ⟨t, es, kids, O, hown.room_mono _ (Nat.le_add_right _ _), rfl⟩
  have hcount : n.count = es.length := hrep.count_eq
  have hvalue := hrep.body.2.1
  have hv := hvalid n hpage
  have hkey : ∀ {slotId : Nat} {key : Bytes}, slotId < n.count →
      ¬ BranchOp.Room Γ.P ((keysOf es).eraseIdx slotId) key →
      BranchNode.updateKey Γ.env q slotId key s = (.ok false, s) := by
    intro slotId key hlt hroom
    obtain ⟨es₁, e, es₂, rfl, rfl⟩ := ListAt.exists_split_lt (hcount ▸ hlt)
    rw [← keysOf_erase, BranchOp.room_iff_fits Γ.hP (values_rest hvalue)] at hroom
    exact hown.branchUpdateKey_refused hq hroom
  refine ⟨?_, hrest⟩
  cases op with
  | insert slotId key child right =>
    obtain ⟨es₁, es₂, rfl, rfl⟩ := ListAt.exists_split_le (hcount ▸ hv.1)
    exact hown.branchInsert_refused (mt (BranchOp.room_iff_fits Γ.hP hvalue key).2 hrefuse) child
  | append key child right =>
    have hfit : ¬ Fits Γ.P es key [] := mt (BranchOp.room_iff_fits Γ.hP hvalue key).2 hrefuse
    have happend := hown.branchAppend_eq key child right
    rw [← List.append_nil es] at hown hfit
    exact happend.trans (hown.branchInsert_refused hfit child)
  | updateKey slotId key => exact hkey hv.1 hrefuse
  | update slotId key child right =>
    show BranchNode.update Γ.env q slotId key child right s = _
    unfold BranchNode.update
    rw [Exec.bind_of_ok (hkey hv.1 hrefuse)]
    rfl
  | delete slotId right => exact absurd trivial hrefuse
  | pop right => exact absurd trivial hrefuse
  | setLeftChild slotId child => exact absurd trivial hrefuse
  | setRightChild slotId child => exact absurd trivial hrefuse
  | setTailChild child => exact absurd trivial hrefuse

end BranchRun

/-! ## The run -/

/-- **A branch is a list of keys between children.** On a page that was just built with a tail
child, every run of the member functions follows the list exactly when none of its calls meets
a bad state. -/
theorem BranchNode.fence_iff {Γ : PageScope} {b r : ℕ} {O : Multiset Obj} {s : TxState} {q : Nat}
    (tailChild : Nat) (ops : List BranchOp)
    (h : Own Γ (b + BranchOp.roomFor Γ.P ops) r (.area q 1 ::ₘ O) s) :
    Exec.Ok (BranchNode.build Γ.env q tailChild) s fun _ s₀ =>
      (Exec.Refines (BranchOp.exec Γ.env q) (BranchOp.behaviour Γ.P) (BranchOp.Valid Γ.P q)
          (BranchShows Γ.env q) ops ⟨[], [tailChild]⟩ s₀ ↔
        Exec.Avoids (BranchOp.exec Γ.env q) (BranchOp.Valid Γ.P q)
          (BranchOp.Spoils Γ.P q) ops s₀) := by
  obtain ⟨s₀, hbuild, hq, h₀, -⟩ := h.buildBranch tailChild
  refine Exec.Ok.intro () s₀ hbuild ?_
  refine Exec.refines_iff_avoids ?_ (BranchRun Γ b r q) ?_ ?_ ?_ ?_ ops _ s₀
    ⟨Γ.txid, [], [tailChild], O, h₀, rfl⟩
  · intro fence fence' s hshows hshows'
    exact hshows.unique hshows'
  · intro ops fence s hrun
    exact hrun.shows
  · intro op ops fence s hrun hvalid hbad ok s' fence' hok
    exact hrun.spoiled hq hvalid hbad hok fence'
  · intro op ops fence s hrun hvalid hclean haccept
    obtain ⟨s', hok, hnext, -⟩ := hrun.accepted hq hvalid hclean haccept
    exact ⟨s', _, hok, rfl, hnext⟩
  · intro op ops fence s hrun hvalid _ hrefuse
    exact hrun.refused hq hvalid hrefuse

/-! ## The smallest page -/

section Example

/-- Most member functions: a key in overflow pages beside others, a compaction, and a key
that is refused. -/
def branchCalls : List BranchOp :=
  [.append [5] 6 true, .append (List.replicate 200 9) 7 true,
    .insert 1 (List.replicate 90 7) 8 false, .update 0 (List.replicate 80 3) 9 true,
      .updateKey 0 (List.replicate 80 4), .append (List.replicate 60 10) 11 true,
    .delete 1 false, .setLeftChild 0 12, .setTailChild 13, .pop true]

/-- A branch under these calls is a list of keys between children. -/
theorem BranchNode.fence_branchCalls : Exec.Ok (BranchNode.build smallEnv 2 5) freshPage fun _ s₀ =>
    Exec.Refines (BranchOp.exec smallEnv 2) (BranchOp.behaviour 256) (BranchOp.Valid 256 2)
      (BranchShows smallEnv 2) branchCalls ⟨[], [5]⟩ s₀ := by
  obtain ⟨_, s₀, hbuild, hiff⟩ :=
    BranchNode.fence_iff (Γ := layoutScope smallEnv smallEnv_ok freshMeta 0) (b := 0) 5
    branchCalls (own_freshPage (by decide +kernel))
  refine ⟨_, s₀, hbuild, hiff.2 ?_⟩
  have hclean : Exec.Clean (BranchOp.exec smallEnv 2) (BranchOp.Spoils 256 2) branchCalls
      (BranchNode.build smallEnv 2 5 freshPage).2 := by decide +kernel
  obtain rfl : (BranchNode.build smallEnv 2 5 freshPage).2 = s₀ := (Prod.mk.inj hbuild).2
  exact hclean.avoids

/-- A key in overflow pages, and a short one in its place. -/
def shorteningCalls : List BranchOp := [.append (List.replicate 200 7) 6 true, .updateKey 0 [1]]

/-- The state after the first call. -/
def longKeyed : TxState :=
  (BranchOp.exec smallEnv 2 (.append (List.replicate 200 7) 6 true)
    (BranchNode.build smallEnv 2 5 freshPage).2).2

/-- The state after both calls. -/
def shortKeyed : TxState := (BranchOp.exec smallEnv 2 (.updateKey 0 [1]) longKeyed).2

/-- **A branch is not always a list of keys between children.** The length of the long key is
subtracted from `space_used`, which never counted it. -/
theorem BranchNode.not_fence :
    ∃ (Γ : PageScope) (b r : ℕ) (O : Multiset Obj) (s : TxState) (q tailChild : Nat)
    (ops : List BranchOp), Own Γ (b + BranchOp.roomFor Γ.P ops) r (.area q 1 ::ₘ O) s ∧
      ¬ Exec.Ok (BranchNode.build Γ.env q tailChild) s fun _ s₀ =>
        Exec.Refines (BranchOp.exec Γ.env q) (BranchOp.behaviour Γ.P) (BranchOp.Valid Γ.P q)
          (BranchShows Γ.env q) ops ⟨[], [tailChild]⟩ s₀ := by
  refine ⟨layoutScope smallEnv smallEnv_ok freshMeta 0, 0, kPageInvalidId, 0, freshPage, 2, 5,
    shorteningCalls, own_freshPage (by decide +kernel), ?_⟩
  rintro ⟨_, s₀, hbuild, h₀⟩
  obtain rfl : (BranchNode.build smallEnv 2 5 freshPage).2 = s₀ := (Prod.mk.inj hbuild).2
  obtain ⟨-, fence₁, h₁⟩ := h₀.next fun n _ =>
    admissible_small (List.length_replicate.trans_le (by decide)) (Nat.zero_le _)
  have h₁' : Exec.Refines (BranchOp.exec smallEnv 2) (BranchOp.behaviour 256) (BranchOp.Valid 256 2)
      (BranchShows smallEnv 2) [.updateKey 0 [1]] fence₁ longKeyed := h₁
  have hvalid : BranchOp.Valid 256 2 (.updateKey 0 [1]) longKeyed := by
    intro n hn
    have hcount : (longKeyed.pager.pages 2).asNode.map Node.count = some 1 := by decide +kernel
    rw [hn] at hcount
    have hcount' : n.count = 1 := Option.some.inj hcount
    exact ⟨by rw [hcount']; exact Nat.one_pos, admissible_small (by decide) (by decide)⟩
  obtain ⟨-, fence, h₂⟩ := h₁'.next hvalid
  have hshown : BranchShows smallEnv 2 fence shortKeyed := h₂.shown
  obtain ⟨n, hpage, -, hsized⟩ := hshown.header
  have hwrong : (shortKeyed.pager.pages 2).asNode.map
      (fun n => n.spaceUsed == Node.slotsSpace n.isLeaf n.slots) = some false := by decide +kernel
  rw [hpage] at hwrong
  exact absurd hsized.used (beq_eq_false_iff_ne.1 (Option.some.inj hwrong))

end Example

end AtomKV
