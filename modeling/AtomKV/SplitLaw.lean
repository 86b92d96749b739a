import AtomKV.Rebalancing
import AtomKV.BranchRefinement
import AtomKV.LeafRefinement

/-!
# What a split makes of a node

A node that has no room for a record is split, and the record goes to one of the halves. For a leaf
the two halves hold the old records with the new one between them (`splitLeaf_divides`). For a
branch the key between the halves rises, and the children should be divided along with the keys;
they are as long as the right half takes the new key at once, and never when it refuses it
(`splitBranch_divides_iff`).
-/

set_option autoImplicit false

namespace AtomKV

/-! ## Leaves -/

/-- The leaves `left` and `right` show the rows with `row` in front of the one at `slotId`, and
both show some. -/
def LeafDivides (env : Env) (left right : Nat) (rows : List Row) (slotId : Nat) (row : Row)
    (s : TxState) : Prop :=
  ∃ rowsL rowsR, LeafShows env left rowsL s ∧ LeafShows env right rowsR s ∧ rowsL ≠ [] ∧
    rowsR ≠ [] ∧ rowsL ++ rowsR = rows.insertIdx slotId row

section Leaf

variable {Γ : PageScope} {b r : ℕ} {O : Multiset Obj} {s s₁ : TxState} {left tl slotId : Nat}
  {es : List Entry} {key value : Bytes}

/-- **The split of a leaf.** -/
theorem splitLeaf_divides (hleft : ¬ Γ.keep left) (hadm : Admissible Γ.P key value)
    (hslot : slotId ≤ es.length) (isBucket : Bool)
    (h : Own Γ (b + (1 + 2 * entriesPages Γ.P es + recordPages Γ.P key value)) r
      (.node left (.leaf tl es) ::ₘ O) s)
    (hinsert : LeafNode.insert Γ.env left slotId key value s = (.ok false, s₁)) :
    Exec.Ok (BTree.splitLeaf Γ.env left slotId key value isBucket) s₁ fun right s' =>
      LeafDivides Γ.env left right (rowsOf es) slotId (key, value, isBucket) s' := by
  obtain ⟨A, B, rfl, rfl⟩ := ListAt.exists_split_le hslot
  have h₀ : Own Γ (b + recordPages Γ.P key value) r (.node left (.leaf tl (A ++ B)) ::ₘ O) s :=
    h.room_mono _ (by omega)
  obtain ⟨rfl, hfull⟩ := h₀.leafInsert_false hleft hadm hinsert
  refine (splitLeaf_ok hleft isBucket hadm h hfull).imp fun right s' hsplit => ?_
  obtain ⟨-, G, L, u, R, hdata, hL, -, -, -, h'⟩ := hsplit
  have hright :
      Own Γ b r (.node right (.leaf Γ.txid (u :: R)) ::ₘ .node left (.leaf tl L) ::ₘ (G + O)) s' :=
    h'.perm (Multiset.cons_swap _ _ _)
  have hL' : rowsOf L ≠ [] := fun hnil => hL (List.map_eq_nil_iff.1 hnil)
  have hrows : rowsOf L ++ rowsOf (u :: R) =
      (rowsOf (A ++ B)).insertIdx A.length (key, value, isBucket) := by
    have hinserted := rowsOf_insert A B ⟨key, value, isBucket, 0⟩
    have happend : rowsOf L ++ rowsOf (u :: R) = rowsOf (L ++ u :: R) := (List.map_append).symm
    rw [happend]
    exact Eq.trans hdata hinserted
  exact ⟨rowsOf L, rowsOf (u :: R), h'.leafShows, hright.leafShows, hL',
    List.cons_ne_nil _ _, hrows⟩

/-! ### A full leaf -/

theorem admissible_longKey (n : UInt8) : Admissible 256 (longKey n) [] :=
  admissible_small (by simp [longKey]) (Nat.zero_le _)

/-- Two long keys. -/
def longKeys : List Entry := [keyEntry (longKey 1), keyEntry (longKey 3)]

def longLeaf : List (Nat × NodeView) := [(2, .leaf 1 longKeys)]

def longLeafState : TxState := layout 256 freshMeta 2 longLeaf

theorem own_longLeaf {room : ℕ} (hroom : room ≤ 1000) :
    Own (layoutScope smallEnv smallEnv_ok freshMeta 1) room 2
    (.node 2 (.leaf 1 longKeys) ::ₘ 0) longLeafState :=
  have hpages : longLeaf.length + 2 + room ≤ kPageMaxCount := by
    unfold kPageMaxCount
    show 1 + 2 + room ≤ _
    omega
  own_layout (show ∀ n ∈ longLeaf, n.2.Lays 256 by decide) (List.Perm.refl _) hpages

theorem splitLeaf_divides_full :
    Exec.Ok (BTree.splitLeaf smallEnv 2 1 (longKey 2) [] true) longLeafState
    fun right s' => LeafDivides smallEnv 2 right (rowsOf longKeys) 1 (longKey 2, [], true) s' := by
  have h : Own (layoutScope smallEnv smallEnv_ok freshMeta 1) 0 2
      (.node 2 (.leaf 1 ([keyEntry (longKey 1)] ++ [keyEntry (longKey 3)])) ::ₘ 0) longLeafState :=
    own_longLeaf (by decide)
  have hfull : ¬ Fits 256 ([keyEntry (longKey 1)] ++ [keyEntry (longKey 3)]) (longKey 2) [] := by
    decide
  have hroom : Own (layoutScope smallEnv smallEnv_ok freshMeta 1)
      (0 + (1 + 2 * entriesPages 256 longKeys + recordPages 256 (longKey 2) [])) 2
      (.node 2 (.leaf 1 longKeys) ::ₘ 0) longLeafState := own_longLeaf (by decide)
  have hsplit := splitLeaf_divides (fun hk => hk) (admissible_longKey 2)
    (show 1 ≤ longKeys.length by decide) true hroom (h.leafInsert_refused hfull)
  exact hsplit

end Leaf

/-! ## Branches -/

namespace Fence

/-- Two lists with a key between them. -/
def join (left : Fence) (key : Bytes) (right : Fence) : Fence :=
  ⟨left.keys ++ key :: right.keys, left.kids ++ right.kids⟩

end Fence

/-- The branches `left` and `up.2` and the key `up.1` between them show the list with `key` at
`slotId` and `child` on its right, and both branches show a key. -/
def BranchDivides (env : Env) (left : Nat) (up : Bytes × Nat) (fence : Fence) (slotId : Nat)
    (key : Bytes) (child : Nat) (s : TxState) : Prop :=
  ∃ fenceL fenceR, BranchShows env left fenceL s ∧ BranchShows env up.2 fenceR s ∧
    fenceL.keys ≠ [] ∧ fenceR.keys ≠ [] ∧ fenceL.join up.1 fenceR =
      ⟨fence.keys.insertIdx slotId key, fence.kids.insertIdx (slotId + 1) child⟩

/-- The halves of a branch have no child in common. -/
theorem BranchDivides.disjoint {env : Env} {left slotId child : Nat} {up : Bytes × Nat}
    {fence fenceL fenceR : Fence} {key : Bytes} {s : TxState}
    (h : BranchDivides env left up fence slotId key child s)
    (hL : BranchShows env left fenceL s) (hR : BranchShows env up.2 fenceR s)
    (hslot : slotId + 1 ≤ fence.kids.length) (hnodup : fence.kids.Nodup)
    (hchild : child ∉ fence.kids) {x : Nat} (hx : x ∈ fenceL.kids) : x ∉ fenceR.kids := by
  obtain ⟨fenceL', fenceR', hL', hR', -, -, hjoin⟩ := h
  obtain rfl := hL.unique hL'
  obtain rfl := hR.unique hR'
  have hkids : fenceL.kids ++ fenceR.kids = fence.kids.insertIdx (slotId + 1) child :=
    congrArg Fence.kids hjoin
  have hall : (fenceL.kids ++ fenceR.kids).Nodup := by
    rw [hkids]
    exact (List.perm_insertIdx child fence.kids hslot).nodup_iff.2
      (List.nodup_cons.2 ⟨hchild, hnodup⟩)
  exact fun hx' => (List.disjoint_of_nodup_append hall) hx hx'

section Branch

variable {Γ : PageScope} {b r : ℕ} {O : Multiset Obj} {s s₁ : TxState} {left tl slotId child : Nat}
  {es : List Entry} {kids : List Nat} {key : Bytes}

/-- The child on the left of a slot, with the children around it. -/
theorem Own.kids_split {K₁ K₂ : List Entry}
    (h : Own Γ b r (.node left (.branch tl (K₁ ++ K₂) kids) ::ₘ O) s) :
    ∃ T₁ c T₂, kids = T₁ ++ c :: T₂ ∧ T₁.length = K₁.length := by
  have hkids : kids.length = (K₁ ++ K₂).length + 1 :=
    h.branch_kids_length (Multiset.mem_cons_self _ _)
  rw [List.length_append] at hkids
  obtain ⟨T₁, T, rfl, hlen⟩ := ListAt.exists_split_le (l := kids) (i := K₁.length) (by omega)
  cases T with
  | nil =>
    rw [List.append_nil] at hkids
    omega
  | cons c T₂ => exact ⟨T₁, c, T₂, rfl, hlen⟩

/-- The halves when the right one takes the new key. -/
theorem splitBranch_divides (hleft : ¬ Γ.keep left) (hadm : Admissible Γ.P key [])
    (hslot : slotId ≤ es.length)
    (h : Own Γ (b + (1 + 2 * entriesPages Γ.P es + recordPages Γ.P key [])) r
      (.node left (.branch tl es kids) ::ₘ O) s)
    (hfull : ¬ Fits Γ.P es key []) (haccepts : ¬ SplitRefuses Γ.P es slotId key) :
    ∃ up s', BTree.splitBranch Γ.env left slotId key child s = (.ok up, s') ∧
      BranchDivides Γ.env left up ⟨keysOf es, kids⟩ slotId key child s' := by
  obtain ⟨K₁, K₂, rfl, rfl⟩ := ListAt.exists_split_le hslot
  obtain ⟨T₁, c, T₂, rfl, hT⟩ := h.kids_split
  obtain ⟨up, s', hrun, L, u, M, kL, kR, hresult, hkept, -⟩ :=
    splitBranch_ok hleft hadm child h hT hfull
  obtain ⟨hcontent, hkids, -⟩ := hkept haccepts
  have hright : Own Γ b r (.node up.2 (.branch Γ.txid M kR) ::ₘ .node left (.branch tl L kL) ::ₘ O)
      s' :=
    hresult.own.perm (Multiset.cons_swap _ _ _)
  have hkeys : keysOf L ++ up.1 :: keysOf M = (keysOf (K₁ ++ K₂)).insertIdx K₁.length key := by
    have hinserted := keysOf_insert K₁ K₂ ⟨key, [], false, 0⟩
    have hsame : keysOf (L ++ u :: M) = keysOf (K₁ ++ ⟨key, [], false, 0⟩ :: K₂) := hcontent.map_key
    have happend : keysOf (L ++ u :: M) = keysOf L ++ u.key :: keysOf M := List.map_append
    rw [hresult.key_eq, ← happend, hsame, hinserted]
  have hplaced : kL ++ kR = (T₁ ++ c :: T₂).insertIdx (K₁.length + 1) child := by
    rw [hkids, ← hT, ListAt.insertIdx_length_succ]
  have hL : keysOf L ≠ [] := fun hnil => hresult.left_ne (List.map_eq_nil_iff.1 hnil)
  have hM : keysOf M ≠ [] := fun hnil => hresult.right_ne (List.map_eq_nil_iff.1 hnil)
  refine ⟨up, s', hrun, ⟨keysOf L, kL⟩, ⟨keysOf M, kR⟩, hresult.own.branchShows,
    hright.branchShows, hL, hM, ?_⟩
  unfold Fence.join
  rw [hkeys, hplaced]

/-- If the right half refuses the new key, its first key is moved to the left half, where the stale
tail child becomes the left child: the tail child is in both halves then. -/
theorem splitBranch_shares (hleft : ¬ Γ.keep left) (hadm : Admissible Γ.P key [])
    (hslot : slotId ≤ es.length) (hnodup : kids.Nodup) (hchild : child ∉ kids)
    (h : Own Γ (b + (1 + 2 * entriesPages Γ.P es + recordPages Γ.P key [])) r
      (.node left (.branch tl es kids) ::ₘ O) s)
    (hfull : ¬ Fits Γ.P es key []) (hrefuses : SplitRefuses Γ.P es slotId key) :
    ¬ ∃ up s', BTree.splitBranch Γ.env left slotId key child s = (.ok up, s') ∧
      BranchDivides Γ.env left up ⟨keysOf es, kids⟩ slotId key child s' := by
  rintro ⟨up, s', hrun, hdivides⟩
  have hlen : kids.length = es.length + 1 := h.branch_kids_length (Multiset.mem_cons_self _ _)
  obtain ⟨K₁, K₂, rfl, rfl⟩ := ListAt.exists_split_le hslot
  obtain ⟨T₁, c, T₂, rfl, hT⟩ := h.kids_split
  obtain ⟨L, u, M, kL, kR, hresult, -, hshared⟩ :=
    (splitBranch_ok hleft hadm child h hT hfull).eq_of_eq hrun
  obtain ⟨x, hx, hx'⟩ := hshared hrefuses
  have hright : Own Γ b r (.node up.2 (.branch Γ.txid M kR) ::ₘ .node left (.branch tl L kL) ::ₘ O)
      s' :=
    hresult.own.perm (Multiset.cons_swap _ _ _)
  refine hdivides.disjoint hresult.own.branchShows hright.branchShows ?_ hnodup hchild hx hx'
  show K₁.length + 1 ≤ (T₁ ++ c :: T₂).length
  rw [hlen]
  exact Nat.succ_le_succ hslot

/-- **The split of a branch divides it unless the right half refuses the new key.** -/
theorem splitBranch_divides_iff (hleft : ¬ Γ.keep left) (hadm : Admissible Γ.P key [])
    (hslot : slotId ≤ es.length) (hnodup : kids.Nodup) (hchild : child ∉ kids)
    (h : Own Γ (b + (1 + 2 * entriesPages Γ.P es + recordPages Γ.P key [])) r
      (.node left (.branch tl es kids) ::ₘ O) s)
    (hinsert : BranchNode.insert Γ.env left slotId key child true s = (.ok false, s₁)) :
    (∃ up s', BTree.splitBranch Γ.env left slotId key child s₁ = (.ok up, s') ∧
      BranchDivides Γ.env left up ⟨keysOf es, kids⟩ slotId key child s') ↔
      ¬ SplitRefuses Γ.P es slotId key := by
  have hrefused : s₁ = s ∧ ¬ Fits Γ.P es key [] := by
    obtain ⟨K₁, K₂, rfl, rfl⟩ := ListAt.exists_split_le hslot
    have h₀ : Own Γ (b + recordPages Γ.P key []) r
        (.node left (.branch tl (K₁ ++ K₂) kids) ::ₘ O) s :=
      h.room_mono _ (by omega)
    exact h₀.branchInsert_false hleft hadm hinsert
  obtain ⟨rfl, hfull⟩ := hrefused
  constructor
  · intro hdivides hrefuses
    exact splitBranch_shares hleft hadm hslot hnodup hchild h hfull hrefuses hdivides
  · intro haccepts
    exact splitBranch_divides hleft hadm hslot h hfull haccepts

/-! ### A full branch -/

/-- A short key and two long ones. -/
def wideKeys : List Entry := [keyEntry [2], keyEntry (longKey 3), keyEntry (longKey 4)]

def fullBranch : List (Nat × NodeView) := [(2, .branch 1 wideKeys [3, 4, 5, 6])]

def fullBranchState : TxState := layout 256 freshMeta 2 fullBranch

theorem own_fullBranch {room : ℕ} (hroom : room ≤ 1000) :
    Own (layoutScope smallEnv smallEnv_ok freshMeta 1) room 2
    (.node 2 (.branch 1 wideKeys [3, 4, 5, 6]) ::ₘ 0) fullBranchState :=
  have hpages : fullBranch.length + 2 + room ≤ kPageMaxCount := by
    unfold kPageMaxCount
    show 1 + 2 + room ≤ _
    omega
  own_layout (show ∀ n ∈ fullBranch, n.2.Lays 256 by decide) (List.Perm.refl _) hpages

theorem splitBranch_divides_front : ∃ up s',
    BTree.splitBranch smallEnv 2 0 (longKey 1) 7 fullBranchState = (.ok up, s') ∧
      BranchDivides smallEnv 2 up ⟨keysOf wideKeys, [3, 4, 5, 6]⟩ 0 (longKey 1) 7 s' := by
  have h : Own (layoutScope smallEnv smallEnv_ok freshMeta 1) 0 2
      (.node 2 (.branch 1 ([] ++ wideKeys) [3, 4, 5, 6]) ::ₘ 0) fullBranchState :=
        own_fullBranch (by decide)
  have hfull : ¬ Fits 256 ([] ++ wideKeys) (longKey 1) [] := by decide
  exact (splitBranch_divides_iff (b := 0) (fun hk => hk) (admissible_longKey 1) (by decide)
    (by decide) (by decide) (own_fullBranch (by decide)) (h.branchInsert_refused hfull 7)).2
      (by decide)

/-- **A split does not always divide the children.** A third long key at the end goes to the half
that is full. -/
theorem splitBranch_not_divides :
    ∃ (Γ : PageScope) (b r : ℕ) (O : Multiset Obj) (s s₁ : TxState) (left tl slotId child : Nat)
    (es : List Entry) (kids : List Nat) (key : Bytes), ¬ Γ.keep left ∧ Admissible Γ.P key [] ∧
    slotId ≤ es.length ∧
      kids.Nodup ∧ child ∉ kids ∧
      Own Γ (b + (1 + 2 * entriesPages Γ.P es + recordPages Γ.P key [])) r
        (.node left (.branch tl es kids) ::ₘ O) s ∧
      BranchNode.insert Γ.env left slotId key child true s = (.ok false, s₁) ∧
      ¬ ∃ up s', BTree.splitBranch Γ.env left slotId key child s₁ = (.ok up, s') ∧
        BranchDivides Γ.env left up ⟨keysOf es, kids⟩ slotId key child s' := by
  refine ⟨layoutScope smallEnv smallEnv_ok freshMeta 1, 0, 2, 0, fullBranchState, fullBranchState,
    2, 1, 3, 7, wideKeys, [3, 4, 5, 6], longKey 5, fun hk => hk, admissible_longKey 5, by
      decide, by decide, by decide,
    own_fullBranch (by decide), ?_, ?_⟩
  · have h : Own (layoutScope smallEnv smallEnv_ok freshMeta 1) 0 2
        (.node 2 (.branch 1 (wideKeys ++ []) [3, 4, 5, 6]) ::ₘ 0) fullBranchState :=
          own_fullBranch (by decide)
    have hfull : ¬ Fits 256 (wideKeys ++ []) (longKey 5) [] := by decide
    exact h.branchInsert_refused hfull 7
  · exact splitBranch_shares (b := 0) (fun hk => hk) (admissible_longKey 5) (by decide) (by decide)
      (by decide) (own_fullBranch (by decide)) (by decide) (by decide)

end Branch

end AtomKV
