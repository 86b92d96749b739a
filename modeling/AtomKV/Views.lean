import AtomKV.Bucket
import AtomKV.Layout

/-!
# Views

The calls of `ViewTx`, `ViewBucket` and `BucketIterator`. A view runs the code of
`BucketImpl::SubBucket`, which puts an entry into the tree when the key is missing, in a view as
well: the writable flag is stored and not looked at.
-/

set_option autoImplicit false

namespace AtomKV

/-- A call through a view; iterators and buckets are the ones that earlier calls returned,
or any others. -/
inductive ViewOp where
  | subViewBucket (id : Nat) (key : Bytes)
  | get (id : Nat) (key : Bytes)
  | lowerBound (id : Nat) (key : Bytes)
  | begin (id : Nat)
  | next (id : Nat) (iter : BTreeIterator)
  | prev (id : Nat) (iter : BTreeIterator)
  | key (id : Nat) (iter : BTreeIterator)
  | value (id : Nat) (iter : BTreeIterator)
  | isBucket (id : Nat) (iter : BTreeIterator)
  | close

namespace View

variable (env : DbEnv)

/-- `TxManager::RollBack(view_txid)`. -/
def closeView : DbM Unit := do
  let s ← Exec.read
  let txid := s.tx.metaStruct.txid
  match s.viewTxMap.find? fun e => e.1 = txid with
  | none => Exec.raise .assertion
  | some e => do
      Exec.require (0 < e.2) .assertion
      Exec.change fun s => { s with
        viewTxMap :=
          if e.2 = 1 then s.viewTxMap.filter fun e => e.1 ≠ txid
          else s.viewTxMap.map fun e => if e.1 = txid then (txid, e.2 - 1) else e }

def exec : ViewOp → DbM Unit
  | .subViewBucket id key => do let _ ← Bucket.subBucket env id key false
  | .get id key => do let _ ← Bucket.get env id key
  | .lowerBound id key => do let _ ← Bucket.lowerBound env id key
  | .begin id => do let _ ← Bucket.onTree id BTree.begin
  | .next id iter => do let _ ← Bucket.onTree id (BTreeIterator.next iter)
  | .prev id iter => do let _ ← Bucket.onTree id (BTreeIterator.prev iter)
  | .key id iter => do let _ ← Bucket.onTree id (BTreeIterator.key env.toEnv iter)
  | .value id iter => do let _ ← Bucket.onTree id (BTreeIterator.value env.toEnv iter)
  | .isBucket id iter => do let _ ← Bucket.onTree id (BTreeIterator.isBucket iter)
  | .close => closeView

/-- The state after a sequence of calls; a call may throw, and the next one is made all the same. -/
def run (s : Db) (ops : List ViewOp) : Db := ops.foldl (fun s op => (exec env op s).2) s

end View

/-! ## What a call may change -/

/-- Pages, pager, page count of the write transaction and log are the same. -/
structure Db.SameStore (s s' : Db) : Prop where
  pager : s'.pager = s.pager
  updateMeta : s'.updateMeta = s.updateMeta
  log : s'.log = s.log
  info : s'.tx.metaStruct = s.tx.metaStruct
  writable : s'.tx.writable = s.tx.writable

namespace Db.SameStore

variable {s s' s'' : Db}

theorem refl (s : Db) : s.SameStore s := ⟨rfl, rfl, rfl, rfl, rfl⟩

theorem trans (h : s.SameStore s') (h' : s'.SameStore s'') : s.SameStore s'' :=
  ⟨h'.pager.trans h.pager, h'.updateMeta.trans h.updateMeta, h'.log.trans h.log,
    h'.info.trans h.info, h'.writable.trans h.writable⟩

theorem setBucket (s : Db) (id : Nat) (b : BucketImpl) : s.SameStore (s.setBucket id b) := by
  unfold Db.setBucket
  split_ifs
  · exact ⟨rfl, rfl, rfl, rfl, rfl⟩
  · exact ⟨rfl, rfl, rfl, rfl, rfl⟩

theorem modifyMap (s : Db) (id : Nat) (f : SubBucketMap → SubBucketMap) :
    s.SameStore (s.modifyMap id f) := by
  unfold Db.modifyMap
  cases s.bucket id with
  | none => exact refl s
  | some b => exact setBucket s id _

theorem treeState (h : s.SameStore s') (root : Nat) : s'.treeState root = s.treeState root := by
  unfold Db.treeState
  rw [h.writable, h.pager, h.info, h.updateMeta]

end Db.SameStore

namespace View

variable {env : DbEnv} {s : Db}

/-- Buckets and their maps are the transaction's own. -/
theorem keeps_modifyMap (id : Nat) (f : SubBucketMap → SubBucketMap) :
    Exec.Keeps s.SameStore (Exec.change fun s => s.modifyMap id f : DbM Unit) fun _ => True :=
  Exec.Keeps.change fun _ h => h.trans (Db.SameStore.modifyMap _ id f)

theorem keeps_newSubBucket (r : RootRef) (w : Bool) :
    Exec.Keeps s.SameStore (Bucket.newSubBucket r w) fun _ => True := by
  unfold Bucket.newSubBucket
  refine Exec.Keeps.bind Exec.Keeps.read fun s' _ => Exec.Keeps.bind
    (Exec.Keeps.change fun s' h => ?_) fun _ _ =>
    Exec.Keeps.pure trivial
  exact h.trans ⟨rfl, rfl, rfl, rfl, rfl⟩

theorem readOnly_atSubBucket (id : Nat) : Exec.ReadOnly (Bucket.atSubBucket id) := by
  intro s
  unfold Bucket.atSubBucket
  cases s.bucket id <;> rfl

theorem readOnly_pgidValue (id : Nat) (iter : BTreeIterator) :
    Exec.ReadOnly (Bucket.pgidValue env id iter) := by
  unfold Bucket.pgidValue
  refine (Bucket.onTree_readOnly (Reads.iterValue env.toEnv iter) id).bind fun value => ?_
  exact Exec.ReadOnly.ite (Exec.ReadOnly.raise.bind fun _ => Exec.ReadOnly.pure) Exec.ReadOnly.pure

/-! ## Opening a sub-bucket -/

/-- The bucket has been opened in this transaction, or its key is in the tree. -/
def Finds (env : DbEnv) (id : Nat) (key : Bytes) (s : Db) : Prop :=
  (s.entry id key).isSome ∨ ∃ iter s', Bucket.get env id key s = (.ok iter, s') ∧ ¬ iter.isEnd

/-- Other keys and other buckets have the same entries, and `id` its root variable, after an entry
of `id` is made. -/
theorem rootAt_insert {id : Nat} {b : BucketImpl} {key : Bytes} {r : RootRef} {root : Nat}
    (hb : s.bucket id = some b) (hnone : s.entry id key = none) (hroot : s.rootAt r = some root)
    (v : Nat × Nat) : (s.setBucket id
      { b with subBucketMap := some (SubBucketMap.insert key v (b.subBucketMap.getD [])) }).rootAt
        r =
      some root := by
  cases r with
  | userRoot =>
    rw [← hroot]
    show some _ = some _
    rw [(Db.SameStore.setBucket s id _).info]
  | entry parent k =>
    obtain ⟨e, he, hroot⟩ := Option.map_eq_some_iff.1 hroot
    refine Option.map_eq_some_iff.2 ⟨e, ?_, hroot⟩
    by_cases hp : parent = id
    · subst hp
      have hk : k ≠ key := by
        rintro rfl
        rw [hnone] at he
        cases he
      unfold Db.entry at he ⊢
      rw [Db.bucket_setBucket_self hb, Option.bind_some, Option.bind_some,
        SubBucketMap.lookup_insert_of_ne hk]
      rw [hb, Option.bind_some] at he
      obtain ⟨m, hm, he⟩ := Option.bind_eq_some_iff.1 he
      rw [hm]
      exact he
    · rw [Db.entry_setBucket_of_ne hp]
      exact he

/-- What is read through the tree of `id` is the same after an entry of `id` is made. -/
theorem onTree_insert {α : Type} {x : TxM α} (hx : Exec.ReadOnly x) {id : Nat} {b : BucketImpl}
    {key : Bytes} (hb : s.bucket id = some b) (hnone : s.entry id key = none)
    (v : Nat × Nat) {a : α} {t : Db} (hrun : Bucket.onTree id x s = (.ok a, t)) :
    Bucket.onTree id x (s.setBucket id { b with
        subBucketMap := some (SubBucketMap.insert key v (b.subBucketMap.getD [])) }) =
      (.ok a, s.setBucket id { b with
        subBucketMap := some (SubBucketMap.insert key v (b.subBucketMap.getD [])) }) := by
  refine Prod.ext ?_ (Bucket.onTree_readOnly hx id _)
  rcases Bucket.onTree_cases s id with ⟨b', root, hb', hroot⟩ | h
  · obtain rfl : b' = b := Option.some.inj (hb'.symm.trans hb)
    rw [Bucket.onTree_of_root (Db.bucket_setBucket_self hb _) (rootAt_insert hb hnone hroot _)]
    rw [Bucket.onTree_of_root hb hroot] at hrun
    show (x _).1 = _
    rw [Db.treeState_setBucket]
    exact (Prod.mk.inj hrun).1
  · rw [h] at hrun
    cases hrun

/-- The first step of opening a bucket makes its entry. -/
theorem modifyMap_insert {id : Nat} {b : BucketImpl} {key : Bytes} (hb : s.bucket id = some b)
    (v : Nat × Nat) :
    (s.setBucket id { b with subBucketMap := some (b.subBucketMap.getD []) }).modifyMap id
      (SubBucketMap.insert key v) = s.setBucket id
        { b with subBucketMap := some (SubBucketMap.insert key v (b.subBucketMap.getD [])) } := by
  rw [Db.modifyMap_of_bucket (Db.bucket_setBucket_self hb _)]
  exact Db.setBucket_setBucket _ _

theorem openSubBucket_same {id : Nat} {b : BucketImpl} {key : Bytes} (w : Bool)
    (hb : s.bucket id = some b) (hnone : s.entry id key = none) {iter : BTreeIterator} {t : Db}
    (hget : Bucket.get env id key s = (.ok iter, t)) (hfound : ¬ iter.isEnd) : s.SameStore
      (Bucket.openSubBucket env id key w
        (s.setBucket id { b with subBucketMap := some (b.subBucketMap.getD []) })).2 := by
  -- the map has the new entry when `Get` is called, and it is the same `Get`
  have hrun : Bucket.get env id key (s.setBucket id { b with
      subBucketMap := some
        (SubBucketMap.insert key (0, kPageInvalidId) (b.subBucketMap.getD [])) }) = (.ok iter, _) :=
    onTree_insert (Reads.get env.toEnv key) hb hnone _ hget
  unfold Bucket.openSubBucket
  rw [Exec.change_bind, modifyMap_insert hb, Exec.bind_of_ok hrun, if_neg hfound]
  refine (Exec.Keeps.bind (I := s.SameStore) (R := fun _ => True)
    (Bucket.onTree_readOnly (Reads.iterIsBucket iter) id).keeps (fun b _ => ?_)
      _ (Db.SameStore.setBucket s id _)).1
  have hrest : Exec.Keeps s.SameStore (do
      let root ← Bucket.pgidValue env id iter
      Exec.change fun s => s.modifyMap id (SubBucketMap.modify key fun e => (e.1, root))
      let sub ← Bucket.newSubBucket (.entry id key) w
      Exec.change fun s => s.modifyMap id (SubBucketMap.modify key fun e => (sub, e.2))
      return sub) fun _ => True := by
    refine Exec.Keeps.bind (readOnly_pgidValue id iter).keeps fun root _ => ?_
    refine Exec.Keeps.bind (keeps_modifyMap id _) fun _ _ => Exec.Keeps.bind
      (keeps_newSubBucket _ w) fun sub _ => ?_
    exact Exec.Keeps.bind (keeps_modifyMap id _) fun _ _ => Exec.Keeps.pure trivial
  exact Exec.Keeps.ite (fun _ => Exec.Keeps.raise_bind) fun _ => hrest

/-- Opening a bucket that is there changes only what the transaction keeps about its buckets. -/
theorem subBucket_same {id : Nat} {key : Bytes} (w : Bool) (h : Finds env id key s) :
    s.SameStore (Bucket.subBucket env id key w s).2 := by
  cases hb : s.bucket id with
  | none =>
    have hat : Bucket.atSubBucket id s = (.error .assertion, s) := by
      simp only [Bucket.atSubBucket, hb]
    unfold Bucket.subBucket
    rw [Exec.bind_of_error hat]
    exact Db.SameStore.refl s
  | some b =>
    have hat : Bucket.atSubBucket id s = (.ok b, s) := by
      simp only [Bucket.atSubBucket, hb]
    unfold Bucket.subBucket
    rw [Exec.bind_of_ok hat, Exec.change_bind]
    have hend : ∀ sub : Nat, Exec.Keeps s.SameStore (do
        let _ ← Bucket.atSubBucket sub
        return sub) fun _ => True := fun sub =>
      Exec.Keeps.bind (readOnly_atSubBucket sub).keeps fun _ _ => Exec.Keeps.pure trivial
    have hentry : s.entry id key = SubBucketMap.lookup key (b.subBucketMap.getD []) := by
      unfold Db.entry
      rw [hb, Option.bind_some]
      cases b.subBucketMap <;> rfl
    -- A bucket that was opened before is only looked up; another one is read from the tree.
    cases hlookup : SubBucketMap.lookup key (b.subBucketMap.getD []) with
    | some e => exact (hend e.1 _ (Db.SameStore.setBucket s id _)).1
    | none =>
      rw [hlookup] at hentry
      rcases h with h | ⟨iter, t, hget, hfound⟩
      · rw [hentry] at h
        cases h
      · have hopen := openSubBucket_same w hb hentry hget hfound
        cases hrun : Bucket.openSubBucket env id key w
            (s.setBucket id { b with subBucketMap := some (b.subBucketMap.getD []) }) with
        | mk r t' =>
          rw [hrun] at hopen
          cases r with
          | ok sub =>
            dsimp only
            rw [Exec.bind_of_ok hrun]
            exact (hend sub t' hopen).1
          | error e =>
            dsimp only
            rw [Exec.bind_of_error hrun]
            exact hopen

/-! ## A run of a view -/

theorem closeView_same : Exec.Keeps s.SameStore closeView fun _ => True := by
  unfold closeView
  refine Exec.Keeps.bind Exec.Keeps.read fun s' _ => ?_
  dsimp only
  cases s'.viewTxMap.find? _ with
  | none => exact Exec.Keeps.raise
  | some e =>
    refine Exec.Keeps.bind Exec.Keeps.require fun _ _ => Exec.Keeps.change fun s'' h => ?_
    exact h.trans ⟨rfl, rfl, rfl, rfl, rfl⟩

/-- The buckets that the call opens are there. -/
def FindsBucket (env : DbEnv) (s : Db) : ViewOp → Prop
  | .subViewBucket id key => Finds env id key s
  | _ => True

/-- One call. -/
theorem exec_same {op : ViewOp} (h : FindsBucket env s op) : s.SameStore (exec env op s).2 := by
  have hread : ∀ {α : Type} {x : TxM α}, Exec.ReadOnly x → ∀ id : Nat,
      s.SameStore ((do let _ ← Bucket.onTree id x : DbM Unit) s).2 := by
    intro α x hx id
    have hread : Exec.ReadOnly (do let _ ← Bucket.onTree id x : DbM Unit) :=
      (Bucket.onTree_readOnly hx id).bind fun _ => Exec.ReadOnly.pure
    rw [hread s]
    exact Db.SameStore.refl s
  cases op with
  | subViewBucket id key =>
    have hsub := subBucket_same false h
    show s.SameStore ((Bucket.subBucket env id key false >>= fun _ => pure ()) s).2
    cases hrun : Bucket.subBucket env id key false s with
    | mk r t =>
      rw [hrun] at hsub
      cases r with
      | ok sub =>
        rw [Exec.bind_of_ok hrun]
        exact hsub
      | error e =>
        rw [Exec.bind_of_error hrun]
        exact hsub
  | get id key => exact hread (Reads.get env.toEnv key) id
  | lowerBound id key => exact hread (Reads.lowerBound env.toEnv key) id
  | begin id => exact hread Reads.begin id
  | next id iter => exact hread (Reads.next iter) id
  | prev id iter => exact hread (Reads.prev iter) id
  | key id iter => exact hread (Reads.iterKey env.toEnv iter) id
  | value id iter => exact hread (Reads.iterValue env.toEnv iter) id
  | isBucket id iter => exact hread (Reads.iterIsBucket iter) id
  | close => exact (closeView_same s (Db.SameStore.refl s)).1

/-- Every `SubViewBucket` of the sequence names a bucket that is there. -/
def FindsBuckets (env : DbEnv) : Db → List ViewOp → Prop
  | _, [] => True
  | s, op :: ops => FindsBucket env s op ∧ FindsBuckets env (exec env op s).2 ops

/-- **Views are read-only** as long as they open buckets that are there. -/
theorem run_same {ops : List ViewOp} (h : FindsBuckets env s ops) :
    s.SameStore (run env s ops) := by
  induction ops generalizing s with
  | nil => exact Db.SameStore.refl s
  | cons op ops ih => exact (exec_same h.1).trans (ih h.2)

/-! ## A missing key -/

section Example

/-- A database with the records `es`, an open write transaction and a view. -/
def twoTransactions (es : List Entry) : Db where
  pager := (layout 256 freshMeta 2 [(2, .leaf 1 es)]).pager
  updateMeta := some { freshMeta with txid := 2, pageCount := 3, userRoot := 2 }
  log := []
  viewTxMap := [(1, 1)]
  tx := TxImpl.init { freshMeta with pageCount := 3, userRoot := 2 } false

def emptyBucket (key : Bytes) : Entry := ⟨key, Pager.encodeU32 kPageInvalidId, true, 0⟩

/-- An empty sub-bucket is opened and searched. -/
theorem run_same_opened : (twoTransactions [emptyBucket [1]]).SameStore
    (run ⟨smallEnv, .kUpdateInPlace⟩ (twoTransactions [emptyBucket [1]])
      [.subViewBucket kUserRootBucketId [1], .get 0 [7], .begin 0, .close]) :=
  run_same ⟨.inr ⟨_, _, rfl, by decide⟩, trivial, trivial, trivial, trivial⟩

/-- **A view writes.** `SubViewBucket` of a missing key puts a record into the committed root page.
-/
theorem not_run_same : ¬ ∀ (env : DbEnv) (s : Db) (ops : List ViewOp), s.tx.writable = false →
    s.SameStore (run env s ops) := by
  intro h
  have hpager :=
    (h ⟨smallEnv, .kUpdateInPlace⟩ (twoTransactions []) [.subViewBucket kUserRootBucketId [1]]
      rfl).pager
  exact absurd (congrArg (fun p => p.pages 2) hpager) (by decide)

end Example

end View

end AtomKV
