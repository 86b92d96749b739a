import AtomKV.BranchRefinement
import AtomKV.Mapping

/-!
# The fields of a node are wide enough

A node that was just built, driven by any sequence of member functions, with its numbers computed
along in a `Ledger`. In every page that `DB::Open` accepts, except one of `kPageMaxSize` bytes, the
header and the slots of a leaf hold the numbers of the ledger after every call, and the space
computations pass their assertions, the last time in the state that a failed compaction leaves. The
same is true of a branch as long as no key in overflow pages is replaced without a compaction. In a
page of `kPageMaxSize` bytes `Build` stores `-32768` for `data_offset`.
-/

set_option autoImplicit false

namespace AtomKV

namespace Node

/-- Every number of the node fits into its field. -/
structure InWidths (n : Node) : Prop where
  dataOffset_ge : -2 ^ 15 ≤ n.dataOffset
  dataOffset_lt : n.dataOffset < 2 ^ 15
  spaceUsed : n.spaceUsed < 2 ^ 16
  count : n.count < 2 ^ 14
  recordOffset : ∀ slot ∈ n.slots, slot.recordOffset < 2 ^ 15
  keySize : ∀ slot ∈ n.slots, slot.keySize < 2 ^ 15

/-- The assertions in `SlotSpace`, `FreeSpace` and `FreeSpaceAfterCompaction` hold. -/
structure SpaceOk (P : Nat) (n : Node) : Prop where
  slotSpace : ∃ space, n.slotSpace P = .ok space
  freeSpace : ∃ space, n.freeSpace P = .ok space
  freeSpaceAfterCompaction : ∃ space, n.freeSpaceAfterCompaction P = .ok space

/-- **The node holds the numbers of the ledger.** They fit into their fields, `space_used` is the
sum of the records' sizes, the records lie apart from each other behind `data_offset`, and the space
computations return what the ledger says. -/
structure Exact (P : Nat) (n : Node) (a : Ledger) : Prop where
  ledger : n.ledger = a
  widths : n.InWidths
  sized : Sized P n
  slotSpace : ∃ space : Nat, n.slotSpace P = .ok space ∧ (space : Int) = a.slotSpace
  freeSpace : ∃ space : Nat, n.freeSpace P = .ok space ∧ (space : Int) = a.freeSpace
  freeSpaceAfterCompaction : ∃ space : Nat, n.freeSpaceAfterCompaction P = .ok space ∧
    (space : Int) = a.freeSpaceAfterCompaction P

theorem Bounded.spaceOk {P : Nat} {n : Node} (hP : PageRange P) (h : Bounded P n) : n.SpaceOk P :=
  ⟨⟨_, h.slotSpace⟩, ⟨_, h.freeSpace hP⟩, ⟨_, h.freeSpaceAfterCompaction hP⟩⟩

/-- Slots are too small to end at the end of a page of a multiple of eight bytes. -/
theorem not_fillsUp {P : Nat} (hP : PageSizeOk P) (n : Node) (key value : Bytes) :
    ¬ n.FillsUp P key value := by
  have hdvd := hP.dvd
  rintro ⟨hfit, hfull⟩
  unfold slotBytes at hfit hfull
  omega

end Node

/-- A node that says `v` holds the numbers that its ledger shows. -/
theorem NodeRep.exact {P : Nat} {v : NodeView} {n : Node} (hP : PageRange P) (h : NodeRep P v n) :
    n.Exact P n.ledger := by
  have hlo := h.sized.lo
  have hhi := h.sized.hi
  have hlt := h.sized.lt
  have hmax := hP.lt_max
  have hbytes : n.slotBytes = 18 + 8 * n.count := rfl
  have hwidths : n.InWidths := by
    refine ⟨by omega, by omega, by omega, by omega, fun slot hslot => ?_, fun slot hslot => ?_⟩
    · have hinside := (h.sized.laid.inside _ (List.mem_map_of_mem hslot)).2
      simp only at hinside
      omega
    · have hhead : slot.head ∈ v.entries.map (Entry.head P) := h.heads ▸ List.mem_map_of_mem hslot
      obtain ⟨e, he, heq⟩ := List.mem_map.1 hhead
      have hkey : e.key.length = slot.keySize := (Prod.mk.inj heq).2
      have hle := (h.admissible e he).key_le
      unfold kKeyMaxSize at hle
      omega
  refine ⟨rfl, hwidths, h.sized, ⟨_, h.sized.slotSpace, n.ledger_slotSpace.symm⟩,
    ⟨_, h.sized.freeSpace hP, ?_⟩, ⟨_, h.sized.freeSpaceAfterCompaction hP, ?_⟩⟩
  · rw [n.ledger_freeSpace]
    omega
  · unfold Ledger.freeSpaceAfterCompaction
    rw [n.ledger_slotSpace]
    show _ = (P : Int) - n.slotBytes - n.spaceUsed
    omega

/-- The page `q` holds the numbers of the ledger. -/
def ExactAt (P : Nat) (q : Nat) (a : Ledger) (s : TxState) : Prop :=
  ∃ n, s.pager.pages q = .node n ∧ n.Exact P a

/-- The space computations pass on the page `q`. -/
def SpaceOkAt (P : Nat) (q : Nat) (s : TxState) : Prop :=
  ∃ n, s.pager.pages q = .node n ∧ n.SpaceOk P

/-- The numbers of a node that the transaction holds. -/
theorem Own.exactAt {Γ : PageScope} {b r : ℕ} {O : Multiset Obj} {s : TxState} {q : Nat}
    {v : NodeView} {a : Ledger} (h : Own Γ b r (.node q v ::ₘ O) s) (ha : NumbersAt q a s) :
      ExactAt Γ.P q a s := by
  obtain ⟨n, hrep, -, hpage, -⟩ := h.read_node
  obtain ⟨n', hpage', rfl⟩ := ha
  obtain rfl : n = n' := Page.node.inj (hpage.symm.trans hpage')
  exact ⟨n, hpage, hrep.exact Γ.hP⟩

/-! ## Leaves -/

/-- A leaf that is built and driven by the calls holds the numbers of the ledger throughout. -/
def LeafNode.FieldsExact (env : Env) (q : Nat) (ops : List LeafOp) (s : TxState) : Prop :=
  Exec.Ok (LeafNode.build env q) s fun _ s₀ =>
    Exec.Tracks (LeafOp.exec env q) (LeafOp.Valid env.pageSize q)
      (fun a op ok => if ok then op.account env.pageSize a else a) (ExactAt env.pageSize q)
        (SpaceOkAt env.pageSize q)
      ops (Ledger.empty env.pageSize) s₀

namespace LeafRun

variable {Γ : PageScope} {b r : ℕ} {q : Nat} {ops : List LeafOp} {op : LeafOp} {rows : List Row}
  {a : Ledger} {s : TxState}

/-- In a page of a multiple of eight bytes the only bad state is the update that compacts. -/
theorem update_of_spoils (hP : PageSizeOk Γ.P) (hbad : op.Spoils Γ.P q s) :
    ∃ slotId key value, op = .update slotId key value := by
  obtain ⟨n, -, hspoil⟩ := hbad
  cases op with
  | insert slotId key value => exact (Node.not_fillsUp hP n key value hspoil).elim
  | append key value => exact (Node.not_fillsUp hP n key value hspoil).elim
  | update slotId key value => exact ⟨slotId, key, value, rfl⟩
  | delete slotId => exact hspoil.elim
  | pop => exact hspoil.elim
  | setIsBucket slotId isBucket => exact hspoil.elim

/-- A call that returns does to the leaf what it does to the ledger. -/
theorem accounted (hq : ¬ Γ.keep q) (h : LeafRun Γ b r q (op :: ops) rows s) (ha : NumbersAt q a s)
    (hvalid : op.Valid Γ.P q s) {ok : Bool} {s' : TxState}
    (hrun : op.exec Γ.env q s = (.ok ok, s')) : ∃ rows', LeafRun Γ b r q ops rows' s' ∧
      NumbersAt q (if ok then op.account Γ.P a else a) s' := by
  have hclean : ¬ op.Spoils Γ.P q s := by
    intro hbad
    obtain ⟨err, s₁, herror⟩ := h.fails hq hvalid hbad
    rw [herror] at hrun
    cases hrun
  by_cases haccept : op.Accepts Γ.P rows
  · obtain ⟨s₁, rows', hok, -, hrest, hbooks⟩ := h.accepted hq hvalid hclean haccept
    rw [hok] at hrun
    cases hrun
    exact ⟨rows', hrest, hbooks.numbersAt ha⟩
  · obtain ⟨hok, hrest⟩ := h.refused hq hvalid haccept
    rw [hok] at hrun
    cases hrun
    exact ⟨rows, hrest, ha⟩

/-- A call that does not return stops in a compaction. -/
theorem stopped (hP : PageSizeOk Γ.P) (hq : ¬ Γ.keep q) (h : LeafRun Γ b r q (op :: ops) rows s)
    (hvalid : op.Valid Γ.P q s) {err : Err} {s' : TxState}
    (hrun : op.exec Γ.env q s = (.error err, s')) : SpaceOkAt Γ.P q s' := by
  by_cases hbad : op.Spoils Γ.P q s
  · obtain ⟨slotId, key, value, rfl⟩ := update_of_spoils hP hbad
    obtain ⟨s₁, n', herror, hpage, hbounded⟩ := h.compacts_fails hq hvalid hbad
    obtain rfl := (Prod.mk.inj (herror.symm.trans hrun)).2
    exact ⟨n', hpage, hbounded.spaceOk Γ.hP⟩
  · by_cases haccept : op.Accepts Γ.P rows
    · obtain ⟨s₁, rows', hok, -⟩ := h.accepted hq hvalid hbad haccept
      cases hok.symm.trans hrun
    · cases (h.refused hq hvalid haccept).1.symm.trans hrun

end LeafRun

/-- **The fields of a leaf are wide enough**, in every page of less than `kPageMaxSize` bytes. -/
theorem LeafNode.fieldsExact_of_own {Γ : PageScope} {b r : ℕ} {O : Multiset Obj} {s : TxState}
    {q : Nat} (hP : PageSizeOk Γ.P) (ops : List LeafOp)
    (h : Own Γ (b + LeafOp.roomFor Γ.P ops) r (.area q 1 ::ₘ O) s) :
    LeafNode.FieldsExact Γ.env q ops s := by
  obtain ⟨s₀, hbuild, hq, h₀, hledger⟩ := h.buildLeaf
  refine Exec.Ok.intro () s₀ hbuild ?_
  have hclean : Exec.Avoids (LeafOp.exec Γ.env q) (LeafOp.Valid Γ.P q) (fun _ _ => False) ops s₀ :=
    Exec.Avoids.of_never (fun _ _ hno => hno) ops s₀
  refine Exec.Tracks.of_avoids
    (fun ops a s => (∃ rows, LeafRun Γ b r q ops rows s) ∧ NumbersAt q a s) ?_ ?_ ?_ ops _ s₀
    ⟨⟨[], Γ.txid, [], O, h₀, rfl⟩, hledger⟩ hclean
  · rintro ops a s ⟨⟨rows, t, es, O, hown, -⟩, ha⟩
    exact hown.exactAt ha
  · rintro op ops a s ⟨⟨rows, hrun⟩, ha⟩ hvalid - ok s' hok
    obtain ⟨rows', hrest, ha'⟩ := hrun.accounted hq ha hvalid hok
    exact ⟨⟨rows', hrest⟩, ha'⟩
  · rintro op ops a s ⟨⟨rows, hrun⟩, -⟩ hvalid - err s' herror
    exact hrun.stopped hP hq hvalid herror

/-! ## Branches -/

namespace BranchOp

/-- The old key is in overflow pages, and the new one is put below the records as they lie. -/
def Overwrites (P : Nat) (n : Node) (slotId : Nat) (key : Bytes) : Prop :=
  ∃ slot run, n.slots[slotId]? = some slot ∧ slot.record = .overflow run ∧
    n.RoomBelow (recordStub P key [])

/-- The call makes `space_used` wrong. -/
def Miscounts (P : Nat) (pgid : Nat) (op : BranchOp) (s : TxState) : Prop :=
  ∃ n, s.pager.pages pgid = .node n ∧
    match op with
    | .updateKey slotId key => Overwrites P n slotId key
    | .update slotId key _ _ => Overwrites P n slotId key
    | _ => False

end BranchOp

/-- A branch that is built and driven by the calls holds the numbers of the ledger throughout. -/
def BranchNode.FieldsExact (env : Env) (q tailChild : Nat) (ops : List BranchOp)
    (s : TxState) : Prop :=
  Exec.Ok (BranchNode.build env q tailChild) s fun _ s₀ =>
    Exec.Tracks (BranchOp.exec env q) (BranchOp.Valid env.pageSize q)
      (fun a op ok => if ok then op.account env.pageSize a else a) (ExactAt env.pageSize q)
        (SpaceOkAt env.pageSize q)
      ops (Ledger.empty env.pageSize) s₀

/-- No call of the run makes `space_used` wrong. -/
def BranchNode.CountsRight (env : Env) (q tailChild : Nat) (ops : List BranchOp)
    (s : TxState) : Prop :=
  Exec.Ok (BranchNode.build env q tailChild) s fun _ s₀ =>
    Exec.Avoids (BranchOp.exec env q) (BranchOp.Valid env.pageSize q)
      (BranchOp.Miscounts env.pageSize q) ops s₀

namespace BranchRun

variable {Γ : PageScope} {b r : ℕ} {q : Nat} {ops : List BranchOp} {op : BranchOp} {fence : Fence}
  {a : Ledger} {s : TxState}

/-- A key in overflow pages that is not put below the records stops the update in a compaction. -/
theorem replaces_fails (hq : ¬ Γ.keep q) {slotId : Nat} {key : Bytes} {t : Nat} {es : List Entry}
    {kids : List Nat} {O : Multiset Obj} {n : Node} {b : ℕ}
    (h : Own Γ b r (.node q (.branch t es kids) ::ₘ O) s)
    (hpage : s.pager.pages q = .node n) (hrep : NodeRep Γ.P (.branch t es kids) n)
    (hlt : slotId < n.count) (hbad : BranchOp.Replaces Γ.P n slotId key)
    (hclean : ¬ BranchOp.Overwrites Γ.P n slotId key) :
    ∃ s' n', BranchNode.updateKey Γ.env q slotId key s = (.error .assertion, s') ∧
      s'.pager.pages q = .node n' ∧ Node.Bounded Γ.P n' := by
  have hcount : n.count = es.length := hrep.count_eq
  have hroom : ¬ n.RoomBelow (recordStub Γ.P key []) := by
    intro hroom
    obtain ⟨slot, run, hslot, hrun, -⟩ := hbad
    exact hclean ⟨slot, run, hslot, hrun, hroom⟩
  obtain ⟨es₁, e, es₂, rfl, rfl⟩ := ListAt.exists_split_lt (hcount ▸ hlt)
  obtain ⟨hover, hfit⟩ := (BranchOp.replaces_iff Γ.hP hrep key).1 hbad
  exact h.branchUpdateKey_error hq hpage hover hfit hroom

/-- A call in a bad state that leaves `space_used` alone stops in a compaction. -/
theorem spoils_fails (hP : PageSizeOk Γ.P) (hq : ¬ Γ.keep q)
    (h : BranchRun Γ b r q (op :: ops) fence s) (hvalid : op.Valid Γ.P q s)
    (hbad : op.Spoils Γ.P q s) (hclean : ¬ op.Miscounts Γ.P q s) :
    ∃ err s', op.exec Γ.env q s = (.error err, s') ∧ SpaceOkAt Γ.P q s' := by
  obtain ⟨t, es, kids, O, n, hown, rfl, hpage, hrep⟩ := h.take
  obtain ⟨n', hpage', hspoil⟩ := hbad
  obtain rfl : n = n' := Page.node.inj (hpage.symm.trans hpage')
  have hv := hvalid n hpage
  cases op with
  | insert slotId key child right => exact (Node.not_fillsUp hP n key [] hspoil).elim
  | append key child right => exact (Node.not_fillsUp hP n key [] hspoil).elim
  | updateKey slotId key =>
    obtain ⟨s', n', herror, hpage', hbounded⟩ :=
      replaces_fails hq hown hpage hrep hv.1 hspoil fun hover => hclean ⟨n, hpage, hover⟩
    exact ⟨_, s', herror, n', hpage', hbounded.spaceOk Γ.hP⟩
  | update slotId key child right =>
    obtain ⟨s', n', herror, hpage', hbounded⟩ :=
      replaces_fails hq hown hpage hrep hv.1 hspoil fun hover => hclean ⟨n, hpage, hover⟩
    exact ⟨_, s', Exec.bind_of_error herror, n', hpage', hbounded.spaceOk Γ.hP⟩
  | delete slotId right => exact hspoil.elim
  | pop right => exact hspoil.elim
  | setLeftChild slotId child => exact hspoil.elim
  | setRightChild slotId child => exact hspoil.elim
  | setTailChild child => exact hspoil.elim

/-- A call that returns does to the branch what it does to the ledger. -/
theorem accounted (hP : PageSizeOk Γ.P) (hq : ¬ Γ.keep q)
    (h : BranchRun Γ b r q (op :: ops) fence s) (ha : NumbersAt q a s) (hvalid : op.Valid Γ.P q s)
    (hclean : ¬ op.Miscounts Γ.P q s) {ok : Bool} {s' : TxState}
    (hrun : op.exec Γ.env q s = (.ok ok, s')) : ∃ fence', BranchRun Γ b r q ops fence' s' ∧
      NumbersAt q (if ok then op.account Γ.P a else a) s' := by
  have hgood : ¬ op.Spoils Γ.P q s := by
    intro hbad
    obtain ⟨err, s₁, herror, -⟩ := h.spoils_fails hP hq hvalid hbad hclean
    cases herror.symm.trans hrun
  by_cases haccept : op.Accepts Γ.P fence
  · obtain ⟨s₁, hok, hrest, hbooks⟩ := h.accepted hq hvalid hgood haccept
    cases hok.symm.trans hrun
    exact ⟨_, hrest, hbooks.numbersAt ha⟩
  · obtain ⟨hok, hrest⟩ := h.refused hq hvalid haccept
    cases hok.symm.trans hrun
    exact ⟨fence, hrest, ha⟩

/-- A call that does not return stops in a compaction. -/
theorem stopped (hP : PageSizeOk Γ.P) (hq : ¬ Γ.keep q) (h : BranchRun Γ b r q (op :: ops) fence s)
    (hvalid : op.Valid Γ.P q s) (hclean : ¬ op.Miscounts Γ.P q s) {err : Err} {s' : TxState}
    (hrun : op.exec Γ.env q s = (.error err, s')) : SpaceOkAt Γ.P q s' := by
  by_cases hbad : op.Spoils Γ.P q s
  · obtain ⟨err', s₁, herror, hspace⟩ := h.spoils_fails hP hq hvalid hbad hclean
    cases herror.symm.trans hrun
    exact hspace
  · by_cases haccept : op.Accepts Γ.P fence
    · obtain ⟨s₁, hok, -⟩ := h.accepted hq hvalid hbad haccept
      cases hok.symm.trans hrun
    · cases (h.refused hq hvalid haccept).1.symm.trans hrun

end BranchRun

/-- **The fields of a branch are wide enough**, in every page of less than `kPageMaxSize` bytes and
as long as `space_used` counts right. -/
theorem BranchNode.fieldsExact_of_own {Γ : PageScope} {b r : ℕ} {O : Multiset Obj} {s : TxState}
    {q : Nat} (hP : PageSizeOk Γ.P) (tailChild : Nat) (ops : List BranchOp)
    (h : Own Γ (b + BranchOp.roomFor Γ.P ops) r (.area q 1 ::ₘ O) s)
    (hclean : BranchNode.CountsRight Γ.env q tailChild ops s) :
      BranchNode.FieldsExact Γ.env q tailChild ops s := by
  obtain ⟨s₀, hbuild, hq, h₀, hledger⟩ := h.buildBranch tailChild
  refine Exec.Ok.intro () s₀ hbuild ?_
  refine Exec.Tracks.of_avoids
    (fun ops a s => (∃ fence, BranchRun Γ b r q ops fence s) ∧ NumbersAt q a s) ?_ ?_ ?_ ops _ s₀
    ⟨⟨_, Γ.txid, [], [tailChild], O, h₀, rfl⟩, hledger⟩ (hclean.eq_of_eq hbuild)
  · rintro ops a s ⟨⟨fence, t, es, kids, O, hown, -⟩, ha⟩
    exact hown.exactAt ha
  · rintro op ops a s ⟨⟨fence, hrun⟩, ha⟩ hvalid hnot ok s' hok
    obtain ⟨fence', hrest, ha'⟩ := hrun.accounted hP hq ha hvalid hnot hok
    exact ⟨⟨fence', hrest⟩, ha'⟩
  · rintro op ops a s ⟨⟨fence, hrun⟩, -⟩ hvalid hnot err s' herror
    exact hrun.stopped hP hq hvalid hnot herror

/-! ## The largest page -/

/-- In a page of `kPageMaxSize` bytes `data_offset` is negative from the start. -/
theorem LeafNode.not_fieldsExact_of_max {env : Env} (hP : env.pageSize = kPageMaxSize) (q : Nat)
    (ops : List LeafOp) (s : TxState) : ¬ LeafNode.FieldsExact env q ops s := by
  rintro ⟨_, s₀, hbuild, htracks⟩
  obtain ⟨n, hpage, hexact⟩ := htracks.shown
  obtain rfl := (Prod.mk.inj hbuild).2
  obtain rfl := Page.node.inj ((Function.update_self ..).symm.trans hpage)
  have hoffset := congrArg Ledger.dataOffset hexact.ledger
  simp only [Node.ledger, Ledger.empty, hP] at hoffset
  exact absurd hoffset (by decide)

theorem BranchNode.not_fieldsExact_of_max {env : Env} (hP : env.pageSize = kPageMaxSize)
    (q tailChild : Nat) (ops : List BranchOp) (s : TxState) :
      ¬ BranchNode.FieldsExact env q tailChild ops s := by
  rintro ⟨_, s₀, hbuild, htracks⟩
  obtain ⟨n, hpage, hexact⟩ := htracks.shown
  obtain rfl := (Prod.mk.inj hbuild).2
  obtain rfl := Page.node.inj ((Function.update_self ..).symm.trans hpage)
  have hoffset := congrArg Ledger.dataOffset hexact.ledger
  simp only [Node.ledger, Ledger.empty, hP] at hoffset
  exact absurd hoffset (by decide)

/-- The page sizes in between that `DB::Open` accepts. -/
theorem AcceptedPageSize.pageSizeOk {P : Nat} (h : AcceptedPageSize P) (hmin : kPageMinSize ≤ P)
    (hmax : P ≠ kPageMaxSize) : PageSizeOk P := by
  obtain ⟨k, hk, rfl⟩ := h
  have hlow : 8 ≤ k := by
    by_contra hlt
    have hle : 2 ^ k ≤ 2 ^ 7 := Nat.pow_le_pow_right (by omega) (by omega)
    unfold kPageMinSize at hmin
    omega
  have hhigh : k < 15 := by
    refine Nat.lt_of_le_of_ne hk fun heq => hmax ?_
    rw [heq]
    rfl
  have hlt : 2 ^ k < 2 ^ 15 := Nat.pow_lt_pow_right (by omega) hhigh
  have hdvd : 2 ^ 3 ∣ 2 ^ k := Nat.pow_dvd_pow 2 (by omega)
  exact ⟨hmin, hlt, Nat.mod_eq_zero_of_dvd hdvd⟩

/-- **The fields of a node are wide enough**, unless the page has `kPageMaxSize` bytes. -/
theorem Node.fieldsExact {env : Env} (hP : AcceptedPageSize env.pageSize)
    (hmin : kPageMinSize ≤ env.pageSize) :
    (env.pageSize = kPageMaxSize → ∀ q tailChild s, (∀ ops, ¬ LeafNode.FieldsExact env q ops s) ∧
      ∀ ops, ¬ BranchNode.FieldsExact env q tailChild ops s) ∧
    (env.pageSize ≠ kPageMaxSize →
      ∀ (Γ : PageScope) (b r : ℕ) (O : Multiset Obj) (s : TxState) (q tailChild : Nat),
      Γ.env = env →
      (∀ ops, Own Γ (b + LeafOp.roomFor env.pageSize ops) r (.area q 1 ::ₘ O) s →
        LeafNode.FieldsExact env q ops s) ∧
      ∀ ops, Own Γ (b + BranchOp.roomFor env.pageSize ops) r (.area q 1 ::ₘ O) s →
        BranchNode.CountsRight env q tailChild ops s →
          BranchNode.FieldsExact env q tailChild ops s) := by
  refine ⟨fun hmax q tailChild s => ⟨fun ops => ?_, fun ops => ?_⟩, ?_⟩
  · exact LeafNode.not_fieldsExact_of_max hmax q ops s
  · exact BranchNode.not_fieldsExact_of_max hmax q tailChild ops s
  · rintro hmax Γ b r O s q tailChild rfl
    have hok : PageSizeOk Γ.P := hP.pageSizeOk hmin hmax
    exact ⟨fun ops h => LeafNode.fieldsExact_of_own hok ops h,
      fun ops h hclean => BranchNode.fieldsExact_of_own hok tailChild ops h hclean⟩

section Example

/-- Two keys of one byte, one after the other in the same slot. -/
def shortKeyCalls : List BranchOp := [.append [1] 6 true, .updateKey 0 [2]]

/-- The rule on the smallest page, for a leaf whose last update stops in a compaction and
for a branch. -/
theorem Node.fieldsExact_small : LeafNode.FieldsExact smallEnv 2 compactingCalls freshPage ∧
    BranchNode.FieldsExact smallEnv 2 5 shortKeyCalls freshPage := by
  obtain ⟨hleaf, hbranch⟩ :=
    (@Node.fieldsExact smallEnv ⟨8, by decide, rfl⟩ (by decide)).2 (by decide)
    (layoutScope smallEnv smallEnv_ok freshMeta 0).toPageScope 0 kPageInvalidId 0 freshPage 2 5 rfl
  have hclean : BranchNode.CountsRight smallEnv 2 5 shortKeyCalls freshPage := by
    refine Exec.Ok.intro () _ rfl fun _ => ⟨?_, fun ok s' hrun _ => ?_⟩
    · rintro ⟨n, -, hno⟩
      exact hno
    · refine ⟨?_, fun _ _ _ => trivial⟩
      rintro ⟨n, hpage, slot, run, hslot, hrecord, -⟩
      obtain rfl : (BranchOp.exec smallEnv 2 (.append [1] 6 true)
          (BranchNode.build smallEnv 2 5 freshPage).2).2 = s' := (Prod.mk.inj hrun).2
      have hinline : ((BranchOp.exec smallEnv 2 (.append [1] 6 true)
          (BranchNode.build smallEnv 2 5 freshPage).2).2.pager.pages 2).asNode.map
            (fun n => n.slots.all fun slot => slot.record = .inlined [1]) = some true := by
              decide +kernel
      rw [hpage] at hinline
      have hall := List.all_eq_true.1 (Option.some.inj hinline) slot (List.mem_of_getElem? hslot)
      have hslot' := of_decide_eq_true hall
      cases hslot'.symm.trans hrecord
  exact ⟨hleaf compactingCalls (own_freshPage (by decide +kernel)),
    hbranch shortKeyCalls (own_freshPage (by decide +kernel)) hclean⟩

/-- A system with pages of `kPageMaxSize` bytes. -/
def largeEnv : Env := { smallEnv with pageSize := kPageMaxSize }

/-- A new file of it after the allocation of one page. -/
def largePage : TxState := (Pager.alloc 1 (layout kPageMaxSize freshMeta kPageInvalidId [])).2

/-- **The fields of a node are not always wide enough.** In the largest page that `DB::Open`
accepts, `data_offset` is negative after `Build` and the first insertion fails the assertion in
`FreeSpace`; in a smaller one `space_used` is wrong after a short key has taken the place of one in
overflow pages. -/
theorem Node.not_fieldsExact : AcceptedPageSize largeEnv.pageSize ∧
    ¬ LeafNode.FieldsExact largeEnv 2 [.append [1] [2]] largePage ∧
    (LeafNode.append largeEnv 2 [1] [2] (LeafNode.build largeEnv 2 largePage).2).1 =
      .error .assertion ∧
    ¬ BranchNode.FieldsExact smallEnv 2 5 shorteningCalls freshPage := by
  refine ⟨⟨15, by decide, rfl⟩, LeafNode.not_fieldsExact_of_max rfl 2 _ _, by decide +kernel, ?_⟩
  rintro ⟨_, s₀, hbuild, h₀⟩
  obtain rfl : (BranchNode.build smallEnv 2 5 freshPage).2 = s₀ := (Prod.mk.inj hbuild).2
  have hvalid₁ : BranchOp.Valid 256 2 (.append (List.replicate 200 7) 6 true)
      (BranchNode.build smallEnv 2 5 freshPage).2 := fun n _ =>
    admissible_small (List.length_replicate.trans_le (by decide)) (Nat.zero_le _)
  have hrun₁ : BranchOp.exec smallEnv 2 (.append (List.replicate 200 7) 6 true)
      (BranchNode.build smallEnv 2 5 freshPage).2 = (.ok true, longKeyed) :=
    Prod.ext (by decide +kernel) (by rw [longKeyed])
  have hvalid₂ : BranchOp.Valid 256 2 (.updateKey 0 [1]) longKeyed := by
    intro n hn
    have hcount : (longKeyed.pager.pages 2).asNode.map Node.count = some 1 := by decide +kernel
    rw [hn] at hcount
    exact ⟨by rw [show n.count = 1 from Option.some.inj hcount]; exact Nat.one_pos,
      admissible_small (by decide) (by decide)⟩
  have hrun₂ : BranchOp.exec smallEnv 2 (.updateKey 0 [1]) longKeyed = (.ok true, shortKeyed) :=
    Prod.ext (by decide +kernel) (by rw [shortKeyed])
  have h₁ := (h₀.2 hvalid₁).1 true longKeyed hrun₁
  obtain ⟨n, hpage, hexact⟩ := ((h₁.2 hvalid₂).1 true shortKeyed hrun₂).shown
  have hwrong : (shortKeyed.pager.pages 2).asNode.map
      (fun n => n.spaceUsed == Node.slotsSpace n.isLeaf n.slots) = some false := by decide +kernel
  rw [hpage] at hwrong
  exact absurd hexact.sized.used (beq_eq_false_iff_ne.1 (Option.some.inj hwrong))

end Example

end AtomKV
