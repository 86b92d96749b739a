import AtomKV.Views

/-!
# A rejected sub-bucket

`BucketImpl::SubBucket` makes the entry of a key before it looks whether the key holds a bucket.
When the key holds a plain value the call throws and the entry stays, with the bucket id 0 and no
root page: the next call for the key finds the entry and does not throw.
-/

set_option autoImplicit false

namespace AtomKV

namespace Bucket

/-- The key is in the bucket and holds a plain value. -/
def HoldsPlain (env : DbEnv) (id : Nat) (key : Bytes) (s : Db) : Prop :=
  ∃ iter t t', get env id key s = (.ok iter, t) ∧ ¬ iter.isEnd ∧
    onTree id (BTreeIterator.isBucket iter) s = (.ok false, t')

/-- The state after `n` calls of `SubBucket` for the key. -/
def afterCalls (env : DbEnv) (id : Nat) (key : Bytes) (s : Db) : Nat → Db
  | 0 => s
  | n + 1 => (subBucket env id key true (afterCalls env id key s n)).2

/-- What the caller reads under a key after the buckets were written back. -/
def committed (env : DbEnv) (id : Nat) (key : Bytes) (s : Db) :
    Except Err (Option (Bytes × Bool)) :=
  (onTree id (BTree.lookup env.toEnv key) (writeBack env s).2).1

/-- Every call throws, and after any number of calls the write-back ends as it does without them and
leaves the same contents in all buckets. -/
structure Rejects (env : DbEnv) (id : Nat) (key : Bytes) (s : Db) : Prop where
  throws : ∀ n, ∃ message, (subBucket env id key true (afterCalls env id key s n)).1 =
    .error (.invalidArgument message)
  commit : ∀ n, (writeBack env (afterCalls env id key s n)).1 = (writeBack env s).1
  contents : ∀ n id' key', committed env id' key' (afterCalls env id key s n) =
    committed env id' key' s

variable {env : DbEnv} {s : Db} {id : Nat} {key : Bytes}

/-- A key with an entry is not looked up: `SubBucket` returns the bucket id of the entry, or
asserts. -/
theorem subBucket_of_entry {e : Nat × Nat} (h : s.entry id key = some e) (w : Bool)
    (message : String) : (subBucket env id key w s).1 ≠ .error (.invalidArgument message) := by
  obtain ⟨m, hm, hlookup⟩ := Option.bind_eq_some_iff.1 h
  obtain ⟨b, hb, hmap⟩ := Option.bind_eq_some_iff.1 hm
  have hat : atSubBucket id s = (.ok b, s) := by
    simp only [atSubBucket, hb]
  have hfound : SubBucketMap.lookup key (b.subBucketMap.getD []) = some e := by
    rw [hmap]
    exact hlookup
  unfold subBucket
  rw [Exec.bind_of_ok hat, Exec.change_bind]
  simp only [hfound]
  rw [Exec.pure_bind_apply]
  generalize s.setBucket id _ = t
  intro herr
  cases hsub : t.bucket e.1 with
  | none =>
    have hat' : atSubBucket e.1 t = (.error .assertion, t) := by
      simp only [atSubBucket, hsub]
    rw [Exec.bind_of_error hat'] at herr
    cases herr
  | some b' =>
    have hat' : atSubBucket e.1 t = (.ok b', t) := by
      simp only [atSubBucket, hsub]
    rw [Exec.bind_of_ok hat'] at herr
    cases herr

/-- The first call for a plain value throws and leaves an entry behind. -/
theorem subBucket_of_plain (h : HoldsPlain env id key s) (hnone : s.entry id key = none)
    (w : Bool) : (subBucket env id key w s).1 =
        .error (.invalidArgument "attempt to open a key value pair that is not a sub bucket.") ∧
      (subBucket env id key w s).2.entry id key = some (0, kPageInvalidId) := by
  obtain ⟨iter, t, t', hget, hfound, hplain⟩ := h
  rcases onTree_cases s id with ⟨b, root, hb, hroot⟩ | hfail
  · have hat : atSubBucket id s = (.ok b, s) := by
      simp only [atSubBucket, hb]
    -- There is no entry for the key yet, so this call looks into the tree.
    have hlookup : SubBucketMap.lookup key (b.subBucketMap.getD []) = none := by
      have hentry := hnone
      unfold Db.entry at hentry
      rw [hb, Option.bind_some] at hentry
      cases hm : b.subBucketMap with
      | none => rfl
      | some m =>
        rw [hm] at hentry
        exact hentry
    have hrun : get env id key (s.setBucket id { b with
        subBucketMap := some (SubBucketMap.insert key (0, kPageInvalidId)
          (b.subBucketMap.getD [])) }) = (.ok iter, _) :=
      View.onTree_insert (Reads.get env.toEnv key) hb hnone _ hget
    have hrun' := View.onTree_insert (Reads.iterIsBucket iter) hb hnone (0, kPageInvalidId) hplain
    -- The entry is made before the value is read, and the exception leaves it there.
    have hopen : openSubBucket env id key w
        (s.setBucket id { b with subBucketMap := some (b.subBucketMap.getD []) }) =
        (.error (.invalidArgument "attempt to open a key value pair that is not a sub bucket."),
          s.setBucket id { b with
            subBucketMap := some
              (SubBucketMap.insert key (0, kPageInvalidId) (b.subBucketMap.getD [])) }) := by
      unfold openSubBucket
      rw [Exec.change_bind, View.modifyMap_insert hb, Exec.bind_of_ok hrun, if_neg hfound,
        Exec.bind_of_ok hrun', if_pos rfl]
      rfl
    have hcall : subBucket env id key w s =
        (.error (.invalidArgument "attempt to open a key value pair that is not a sub bucket."),
          s.setBucket id { b with
            subBucketMap := some
              (SubBucketMap.insert key (0, kPageInvalidId) (b.subBucketMap.getD [])) }) := by
      unfold subBucket
      rw [Exec.bind_of_ok hat, Exec.change_bind]
      simp only [hlookup]
      rw [Exec.bind_of_error hopen]
    rw [hcall]
    refine ⟨rfl, ?_⟩
    unfold Db.entry
    rw [Db.bucket_setBucket_self hb, Option.bind_some, Option.bind_some]
    exact SubBucketMap.lookup_insert hlookup _
  · unfold get at hget
    rw [hfail] at hget
    cases hget

/-- **A plain value is never rejected twice.** The first call leaves an entry, and the second
one finds it. -/
theorem not_rejects (h : HoldsPlain env id key s) : ¬ Rejects env id key s := by
  intro hrejects
  obtain ⟨message, hfirst⟩ := hrejects.throws 0
  obtain ⟨message', hsecond⟩ := hrejects.throws 1
  cases hentry : s.entry id key with
  | some e => exact subBucket_of_entry hentry true message hfirst
  | none =>
    have hleft := (subBucket_of_plain h hentry true).2
    exact subBucket_of_entry hleft true message' hsecond

section Example

/-- A write transaction on a user bucket with a plain value under 1 and an empty sub-bucket under 2.
-/
def plainAndBucket : Db where
  pager :=
    (layout 256 freshMeta 2 [(2, .leaf 1 [⟨[1], [10], false, 0⟩, View.emptyBucket [2]])]).pager
  updateMeta := none
  log := []
  viewTxMap := []
  tx := TxImpl.init { freshMeta with txid := 2, pageCount := 3, userRoot := 2 } true

def plainEnv : DbEnv := ⟨smallEnv, .kUpdateInPlace⟩

/-- The value 10 is plain. -/
theorem holdsPlain_plainAndBucket : HoldsPlain plainEnv kUserRootBucketId [1] plainAndBucket :=
  ⟨_, _, _, rfl, by decide, rfl⟩

theorem not_rejects_plainAndBucket : ¬ Rejects plainEnv kUserRootBucketId [1] plainAndBucket :=
  not_rejects holdsPlain_plainAndBucket

/-- **The error is gone at the second call.** The bucket under 2 is open and has the id 0; the first
call for 1 throws, the second one returns the bucket of 2. The write-back then puts a root page id
over the plain value, and asserts. -/
theorem rejected_then_aliased :
    let s := (subBucket plainEnv kUserRootBucketId [2] true plainAndBucket).2
    let s' := (subBucket plainEnv kUserRootBucketId [1] true s).2
    HoldsPlain plainEnv kUserRootBucketId [1] s ∧ ¬ Rejects plainEnv kUserRootBucketId [1] s ∧
      (subBucket plainEnv kUserRootBucketId [1] true s).1 =
        .error (.invalidArgument "attempt to open a key value pair that is not a sub bucket.") ∧
      (subBucket plainEnv kUserRootBucketId [1] true s').1 = .ok 0 ∧
      (writeBack plainEnv s).1 = .ok () ∧ (writeBack plainEnv s').1 = .error .assertion := by
  have hplain : HoldsPlain plainEnv kUserRootBucketId [1]
      (subBucket plainEnv kUserRootBucketId [2] true plainAndBucket).2 :=
        ⟨_, _, _, rfl, by decide, rfl⟩
  exact ⟨hplain, not_rejects hplain, by decide +kernel, by decide +kernel, by
    decide +kernel, by decide +kernel⟩

end Example

end Bucket

end AtomKV
