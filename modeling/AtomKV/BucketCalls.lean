import AtomKV.BucketGuard
import AtomKV.Grove
import AtomKV.OpenBuckets

/-!
# Calls on the buckets of a transaction

The buckets of a write transaction are trees in one file, with a root variable each. A call on one
of them answers as its dictionary does and leaves every other bucket as it is, whatever is split,
merged, copied or moved.
-/

set_option autoImplicit false

namespace AtomKV

theorem BTree.readOnly_lookup (env : Env) (key : Bytes) : Exec.ReadOnly (BTree.lookup env key) := by
  unfold BTree.lookup
  refine (Reads.get env key).bind fun iter => ?_
  refine Exec.ReadOnly.ite Exec.ReadOnly.pure ?_
  exact (Reads.iterValue env iter).bind fun _ => (Reads.iterIsBucket iter).bind fun _ =>
    Exec.ReadOnly.pure

/-- The root of the user bucket moves into the meta. -/
theorem Grove.setUserRoot {κ : Type} {Γ : Scope} {b : ℕ} {I : Finset κ} {ρ : κ → Nat}
    {m : κ → Dictionary} {s : TxState} (h : Grove Γ b I ρ m s) (root : Nat) :
      ∃ Γ' : Scope, Γ'.env = Γ.env ∧
        Grove Γ' b I ρ m { s with metaStruct := { s.metaStruct with userRoot := root } } := by
  obtain ⟨t, G, hG, hown, ht⟩ := h
  refine ⟨{ Γ with txMeta := { Γ.txMeta with userRoot := root } }, rfl, t,
    G, hG, ?_, fun i hi => ?_⟩
  · have hinfo : { s.metaStruct with userRoot := root } =
        { { Γ.txMeta with userRoot := root } with pageCount := s.metaStruct.pageCount } := by
      rw [hown.info]
    exact ⟨hown.rep, hown.count, hown.kept, hown.pending, hown.drawn, hown.freeIn, hown.drawnIn,
      hown.pendingIn, hown.sorted, hinfo, hown.grown, hown.room, hown.root⟩
  · obtain ⟨hroot, hordered, hfull, hsafe, hslim, hlists⟩ := ht i hi
    exact ⟨hroot, hordered, hfull, hsafe, hslim, hlists⟩

/-- The tree code changes the page count of the meta only. -/
theorem Grove.info_eq {κ : Type} {Γ : Scope} {b b' : ℕ} {I I' : Finset κ} {ρ ρ' : κ → Nat}
    {m m' : κ → Dictionary} {s s' : TxState} (h : Grove Γ b I ρ m s) (h' : Grove Γ b' I' ρ' m' s') :
    s'.metaStruct = { s.metaStruct with pageCount := s'.metaStruct.pageCount } := by
  obtain ⟨t, G, -, hown, -⟩ := h
  obtain ⟨t', G', -, hown', -⟩ := h'
  have hinfo := hown'.info
  rw [hown.info]
  exact hinfo

/-! ## A transaction and its buckets -/

/-- The meta after the root variable is assigned. -/
def RootRef.info (u : TxState) : RootRef → MetaInfo
  | .userRoot => { u.metaStruct with userRoot := u.rootPgid }
  | .entry _ _ => u.metaStruct

theorem RootRef.freeListPgid_info (r : RootRef) (u : TxState) :
    (r.info u).freeListPgid = u.metaStruct.freeListPgid := by
  cases r <;> rfl

namespace Db

/-- The buckets are not in the tree. -/
theorem withTree_eq {s : Db} (h : s.tx.writable = true) (u : TxState) :
    ((s.withTree u).tx.userBucket = s.tx.userBucket ∧
      (s.withTree u).tx.subBucketCache = s.tx.subBucketCache) ∧
      (s.withTree u).tx.metaStruct.userRoot = u.metaStruct.userRoot := by
  unfold withTree
  rw [if_pos h]
  exact ⟨⟨rfl, rfl⟩, rfl⟩

theorem bucket_withTree {s : Db} (h : s.tx.writable = true) (u : TxState) (id : Nat) :
    (s.withTree u).bucket id = s.bucket id := by
  unfold bucket
  rw [(withTree_eq h u).1.1, (withTree_eq h u).1.2]

/-- What the next call finds. -/
theorem assigned {s : Db} (h : s.tx.writable = true) (u : TxState) (r : RootRef) :
    (∀ root, ((s.withTree u).setRootAt u.rootPgid r).treeState root = ⟨u.pager, r.info u, root⟩) ∧
      ((s.withTree u).setRootAt u.rootPgid r).tx.metaStruct = r.info u ∧
      ((s.withTree u).setRootAt u.rootPgid r).tx.writable = true := by
  have hwith : s.withTree u =
      { s with pager := u.pager, tx := { s.tx with metaStruct := u.metaStruct } } := by
    unfold withTree
    rw [if_pos h]
  rw [hwith]
  cases r with
  | userRoot => exact ⟨fun root => DbKept.treeState_of_writable (by exact h) root, rfl, h⟩
  | entry parent key =>
    have hsame := SameStore.modifyMap
      { s with pager := u.pager, tx := { s.tx with metaStruct := u.metaStruct } } parent
      (SubBucketMap.modify key fun e => (e.1, u.rootPgid))
    exact ⟨fun root =>
      (hsame.treeState root).trans (DbKept.treeState_of_writable (by exact h) root), hsame.info,
      hsame.writable.trans h⟩

/-- The write transaction has opened the buckets `w`; the file has a tree for each path in `I`, with
the root `ρ` and the dictionary `m`. -/
structure Holds (env : DbEnv) (b : ℕ) (w : List BucketPath) (I : Finset BucketPath)
    (ρ : BucketPath → Nat) (m : BucketPath → Dictionary) (s : Db) : Prop where
  rooted : s.Rooted w ρ
  inside : ∀ id p, pathOf w id = some p → p ∈ I
  writable : s.tx.writable = true
  grove : ∃ Γ : Scope, Γ.env = env.toEnv ∧ Grove Γ b I ρ m (s.treeState 0)
  noList : s.tx.metaStruct.freeListPgid = kPageInvalidId

namespace Holds

variable {env : DbEnv} {b b' : ℕ} {w : List BucketPath} {I : Finset BucketPath}
  {ρ : BucketPath → Nat} {m : BucketPath → Dictionary} {s s' : Db} {id : Nat} {p : BucketPath}
  {key value : Bytes}

/-- **A call on one bucket.** -/
theorem onTree {α : Type} {x : TxM α} {a : α} {m' : Dictionary} (h : s.Holds env b w I ρ m)
    (hp : pathOf w id = some p)
    (hx : ∀ (Γ : Scope) O, Γ.env = env.toEnv → HoldsMap Γ b (m p) O (s.treeState (ρ p)) →
      ∃ u, x (s.treeState (ρ p)) = (.ok a, u) ∧ HoldsMap Γ b' m' O u) :
    ∃ s', Bucket.onTree id x s = (.ok a, s') ∧ s'.Holds env b' w I
      (Function.update ρ p (x (s.treeState (ρ p))).2.rootPgid) (Function.update m p m') ∧
      s.SameEntries id s' := by
  obtain ⟨r, hr, hrun⟩ := h.rooted.onTree_eq hp x
  obtain ⟨Γ, henv, hgrove⟩ := h.grove
  obtain ⟨O, hmap, hback⟩ := hgrove.focus (h.inside id p hp)
  rw [DbKept.treeState_of_writable h.writable] at hmap
  obtain ⟨u, hu, hend⟩ := hx Γ O henv (by rw [DbKept.treeState_of_writable h.writable]; exact hmap)
  rw [hu] at hrun ⊢
  have hnew := hback hend
  have hinfo : u.metaStruct = { s.tx.metaStruct with pageCount := u.metaStruct.pageCount } := by
    have hinfo := hgrove.info_eq hnew
    rw [DbKept.treeState_of_writable h.writable] at hinfo
    exact hinfo
  -- the tree code leaves the buckets alone, and then the root is assigned
  obtain ⟨hbucket, huser⟩ := withTree_eq h.writable u
  have hrooted : (s.withTree u).Rooted w ρ := by
    refine h.rooted.congr hbucket.1 hbucket.2 (huser.trans ?_)
    rw [hinfo]
  have href : (s.withTree u).refOf id = some r := by
    unfold refOf
    rw [bucket_withTree h.writable]
    exact hr
  have hentries : s.SameEntries id ((s.withTree u).setRootAt u.rootPgid r) := by
    refine ⟨(SameIds.of_bucket (bucket_withTree h.writable u)).trans
      (SameIds.setRootAt _ u.rootPgid r), fun key => ?_⟩
    rw [entry_setRootAt, if_neg]
    · exact entry_of_bucket (bucket_withTree h.writable u id) key
    · rintro rfl
      exact h.rooted.cached.ref_ne_own hp key hr
  obtain ⟨hstate, hmeta, hwritable⟩ := assigned h.writable u r
  refine ⟨_, hrun, ⟨hrooted.setRootAt hp href u.rootPgid, h.inside, hwritable, ?_, ?_⟩, hentries⟩
  · rw [hstate]
    cases r with
    | userRoot =>
      obtain ⟨Γ', henv', hgrove'⟩ := hnew.setUserRoot u.rootPgid
      exact ⟨Γ', henv'.trans henv, hgrove'.setRoot 0⟩
    | entry parent key => exact ⟨Γ, henv, hnew.setRoot 0⟩
  · rw [hmeta, RootRef.freeListPgid_info, hinfo]
    exact h.noList

/-- A log record. -/
theorem appendLog (h : s.Holds env b w I ρ m) (record : BucketLog) :
    ∃ s', Bucket.appendLog env record s = (.ok (), s') ∧ s'.Holds env b w I ρ m ∧
      (∀ id, s'.bucket id = s.bucket id) ∧ ∀ root, s'.treeState root = s.treeState root := by
  unfold Bucket.appendLog
  by_cases hmode : env.mode = .kWal
  · rw [if_pos hmode]
    refine ⟨_, rfl, ⟨h.rooted.congr rfl rfl rfl, h.inside, h.writable, h.grove, h.noList⟩,
      fun _ => rfl, fun _ => rfl⟩
  · rw [if_neg hmode]
    exact ⟨s, rfl, h, fun _ => rfl, fun _ => rfl⟩

theorem room_mono (h : s.Holds env b w I ρ m) (hb : b' ≤ b) : s.Holds env b' w I ρ m := by
  obtain ⟨Γ, henv, hgrove⟩ := h.grove
  exact { h with grove := ⟨Γ, henv, hgrove.room_mono hb⟩ }

/-- What is found in a tree. -/
theorem reads (h : s.Holds env b w I ρ m) (hp : p ∈ I) (key : Bytes) :
    BTree.lookup env.toEnv key (s.treeState (ρ p)) = (.ok (m p key), s.treeState (ρ p)) := by
  obtain ⟨Γ, henv, hgrove⟩ := h.grove
  have hlookup := hgrove.lookup hp key
  rw [henv, DbKept.treeState_of_writable h.writable] at hlookup
  rw [DbKept.treeState_of_writable h.writable]
  exact hlookup

/-- What is found in a bucket. -/
theorem lookup (h : s.Holds env b w I ρ m) (hp : pathOf w id = some p) (key : Bytes) :
    Bucket.onTree id (BTree.lookup env.toEnv key) s = (.ok (m p key), s) := by
  exact h.rooted.look hp (BTree.readOnly_lookup env.toEnv key) (h.reads (h.inside id p hp) key)

/-- A record is put. -/
theorem put {isBucket : Bool} (h : s.Holds env (b + callRoom) w I ρ m) (hp : pathOf w id = some p)
    (haccept : (m p).Accepts env.pageSize key value isBucket) : ∃ s',
      Bucket.put env id key value isBucket s = (.ok (), s') ∧ s'.Holds env b w I
        (Function.update ρ p
          (BTree.put env.toEnv key value isBucket (s.treeState (ρ p))).2.rootPgid)
        (Function.update m p (Function.update (m p) key (some (value, isBucket)))) ∧
        s.SameEntries id s' := by
  obtain ⟨s₁, hlog, h₁, hsame, hstate⟩ := h.appendLog (.put id key value isBucket)
  have hput : ∀ (Γ : Scope) O, Γ.env = env.toEnv →
      HoldsMap Γ (b + callRoom) (m p) O (s₁.treeState (ρ p)) →
      ∃ u, BTree.put env.toEnv key value isBucket (s₁.treeState (ρ p)) = (.ok (), u) ∧
        HoldsMap Γ b (Function.update (m p) key (some (value, isBucket))) O u := by
    intro Γ O henv hmap
    have hP : Γ.P = env.pageSize := congrArg Env.pageSize henv
    exact henv ▸ hmap.put (show (m p).Accepts Γ.P key value isBucket from hP ▸ haccept)
  obtain ⟨s', hrun, h', hentries⟩ := h₁.onTree hp hput
  rw [hstate] at h'
  refine ⟨s', ?_, h', hentries.of_bucket hsame⟩
  unfold Bucket.put
  rw [Exec.bind_of_ok hlog]
  exact hrun

/-- A key is deleted. -/
theorem delete (h : s.Holds env (b + callRoom) w I ρ m) (hp : pathOf w id = some p)
    (hrelease : (m p).Releases key) :
    ∃ s' root, Bucket.delete env id key s = (.ok (m p key).isSome, s') ∧
      s'.Holds env b w I (Function.update ρ p root)
        (Function.update m p (Function.update (m p) key none)) ∧
      s.SameEntries id s' := by
  obtain ⟨s₁, hlog, h₁, hsame, -⟩ := h.appendLog (.delete id key)
  obtain ⟨s', hrun, h', hentries⟩ := h₁.onTree (x := BTree.delete env.toEnv key) hp
    (fun Γ O henv hmap => henv ▸ hmap.delete hrelease)
  refine ⟨s', _, ?_, h', hentries.of_bucket hsame⟩
  unfold Bucket.delete
  rw [Exec.bind_of_ok hlog]
  exact hrun

end Holds

end Db

/-- What holds of a new file, whatever buckets are open. -/
theorem Db.Rooted.holds_newFile {mode : DbMode} {b : ℕ} {w : List BucketPath} {s : Db}
    (h : s.Rooted w fun _ => kPageInvalidId) (hwritable : s.tx.writable = true)
    (hstate : s.treeState 0 = layout 256 freshMeta 0 []) (hroom : 2 + b ≤ kPageMaxCount) :
    s.Holds ⟨smallEnv, mode⟩ b w ([] :: w).toFinset (fun _ => kPageInvalidId) fun _ _ => none where
  rooted := h
  inside := fun id p hp => List.mem_toFinset.2 (mem_of_pathOf hp)
  writable := hwritable
  grove := by
    rw [hstate]
    exact ⟨layoutScope smallEnv smallEnv_ok freshMeta 0, rfl, Grove.empty _ 0 hroom⟩
  noList := by
    rw [DbKept.treeState_of_writable hwritable] at hstate
    exact congrArg (fun u : TxState => u.metaStruct.freeListPgid) hstate

/-! ## Calls -/

/-- A call on a bucket. -/
def Bucket.exec (env : DbEnv) (id : Nat) : TreeCall → DbM TreeReply
  | .get key => do return .found (← Bucket.onTree id (BTree.lookup env.toEnv key))
  | .put key value isBucket => do
      Bucket.put env id key value isBucket
      return .done
  | .delete key => do return .deleted (← Bucket.delete env id key)

/-- The bucket that has been opened under the path. -/
def Bucket.named (p : BucketPath) : DbM Nat := do
  let s ← Exec.read
  match s.idAt p with
  | some id => return id
  | none => Exec.raise .assertion

theorem Bucket.named_eq {s : Db} {w : List BucketPath} {p : BucketPath} (h : s.Cached w)
    (hp : p ∈ [] :: w) : ∃ id, Bucket.named p s = (.ok id, s) ∧ pathOf w id = some p := by
  obtain ⟨id, hid, hpath⟩ := h.idAt hp
  refine ⟨id, ?_, hpath⟩
  unfold Bucket.named
  rw [Exec.read_bind]
  simp only [hid]
  rfl

/-- A call on it. -/
def Bucket.execAt (env : DbEnv) (c : BucketPath × TreeCall) : DbM TreeReply := do
  let id ← Bucket.named c.1
  Bucket.exec env id c.2

section Calls

variable {env : DbEnv} {b : ℕ} {w : List BucketPath} {I : Finset BucketPath} {ρ : BucketPath → Nat}
  {m : BucketPath → Dictionary} {s : Db} {id : Nat} {p : BucketPath}

/-- One call. -/
theorem Db.Holds.exec {c : TreeCall} (h : s.Holds env (b + callRoom) w I ρ m)
    (hp : pathOf w id = some p) (hc : (Dictionary.spec env.pageSize).permits (m p) c) : ∃ s' root,
      Bucket.exec env id c s = (.ok ((Dictionary.spec env.pageSize).reply (m p) c), s') ∧
        s'.Holds env b w I (Function.update ρ p root)
          (Function.update m p ((Dictionary.spec env.pageSize).next (m p) c)) ∧
          s.SameEntries id s' := by
  cases c with
  | get key =>
    refine ⟨s, ρ p, ?_, ?_, .of_bucket fun _ => rfl, fun _ => rfl⟩
    · show (Bucket.onTree id (BTree.lookup env.toEnv key) >>= _) s = _
      rw [Exec.bind_of_ok (h.lookup hp key)]
      rfl
    · show s.Holds env b w I _ (Function.update m p (m p))
      rw [Function.update_eq_self, Function.update_eq_self]
      exact h.room_mono (Nat.le_add_right _ _)
  | put key value isBucket =>
    obtain ⟨s', hrun, h', hentries⟩ := h.put hp hc
    refine ⟨s', _, ?_, h', hentries⟩
    show (Bucket.put env id key value isBucket >>= _) s = _
    rw [Exec.bind_of_ok hrun]
    rfl
  | delete key =>
    obtain ⟨s', root, hrun, h', hentries⟩ := h.delete hp hc
    refine ⟨s', root, ?_, h', hentries⟩
    show (Bucket.delete env id key >>= _) s = _
    rw [Exec.bind_of_ok hrun]
    rfl

/-- **Buckets do not interfere.** Calls on the open buckets of a transaction, in any order, are
answered as by one dictionary for each bucket, and each bucket ends as it would after its own
calls alone. -/
theorem calls_buckets {cs : List (BucketPath × TreeCall)}
    (h : s.Holds env (cs.length * callRoom + b) w I ρ m) (hopen : ∀ c ∈ cs, c.1 ∈ [] :: w)
    (hpermits : ((Dictionary.spec env.pageSize).each BucketPath).Permits m cs) :
    ∃ s' ρ' m', Exec.calls (Bucket.execAt env) cs s =
        (.ok (((Dictionary.spec env.pageSize).each BucketPath).replies m cs), s') ∧
        s'.Holds env b w I ρ' m' ∧
      ∀ p, m' p = (Dictionary.spec env.pageSize).after (m p)
        ((cs.filter fun c => c.1 = p).map Prod.snd) := by
  let R : ℕ → (BucketPath → Dictionary) → Db → Prop :=
    fun n m s => ∃ ρ, s.Holds env (n * callRoom + b) w I ρ m
  have hstep : ∀ n m s, ∀ c ∈ cs, R (n + 1) m s →
      ((Dictionary.spec env.pageSize).each BucketPath).permits m c →
      ∃ s', Bucket.execAt env c s =
        (.ok (((Dictionary.spec env.pageSize).each BucketPath).reply m c), s') ∧
        R n (((Dictionary.spec env.pageSize).each BucketPath).next m c) s' := by
    rintro n m s ⟨p, c⟩ hmem ⟨ρ, hs⟩ hc
    rw [Nat.succ_mul, Nat.add_right_comm] at hs
    obtain ⟨id, hid, hp⟩ := Bucket.named_eq hs.rooted.cached (hopen _ hmem)
    obtain ⟨s', root, hrun, hs', -⟩ := hs.exec hp hc
    refine ⟨s', ?_, _, hs'⟩
    unfold Bucket.execAt
    rw [Exec.bind_of_ok hid]
    exact hrun
  obtain ⟨s', hrun, ρ', hend⟩ := Spec.calls_eq (R := R) cs hstep (n := 0) ⟨ρ, h⟩ hpermits
  rw [Nat.zero_mul, Nat.zero_add] at hend
  exact ⟨s', ρ', _, hrun, hend, fun p => Spec.after_each m cs p⟩

end Calls

/-- A write transaction on a new file, with a sub-bucket open. -/
def twoBuckets : Db where
  pager := (layout 256 freshMeta kPageInvalidId []).pager
  updateMeta := none
  log := []
  viewTxMap := []
  tx := { TxImpl.init freshMeta true with
    userBucket := ⟨.userRoot, true, some [([1], (0, kPageInvalidId))]⟩
    subBucketCache := [some ⟨.entry kUserRootBucketId [1], true, none⟩] }

theorem rooted_twoBuckets : twoBuckets.Rooted [[[1]]] fun _ => kPageInvalidId where
  cached := by
    refine ⟨by decide, by decide, rfl, rfl, ?_⟩
    intro i p hp
    obtain ⟨hi, rfl⟩ := List.getElem?_eq_some_iff.1 hp
    obtain rfl : i = 0 := Nat.lt_one_iff.1 hi
    exact ⟨kUserRootBucketId, [], [1], kPageInvalidId, rfl, rfl, rfl, rfl⟩
  roots := by
    intro id p hp
    unfold pathOf at hp
    split_ifs at hp with hid
    · rw [hid]
      rfl
    · obtain ⟨hi, -⟩ := List.getElem?_eq_some_iff.1 hp
      obtain rfl : id = 0 := Nat.lt_one_iff.1 hi
      rfl

def twoBucketCalls : List (BucketPath × TreeCall) :=
  [([], .put [5] [6] false), ([[1]], .put [5] [7] false), ([[1]], .put [8] [9] false),
    ([], .get [5]), ([[1]], .delete [5]), ([[1]], .get [5]), ([], .get [5])]

/-- The same key in both. -/
theorem calls_buckets_twoBuckets : ∃ s' ρ' m',
    Exec.calls (Bucket.execAt ⟨smallEnv, .kUpdateInPlace⟩) twoBucketCalls twoBuckets =
      (.ok [.done, .done, .done, .found (some ([6], false)), .deleted true, .found none,
        .found (some ([6], false))], s') ∧
    s'.Holds ⟨smallEnv, .kUpdateInPlace⟩ 0 [[[1]]] [[], [[1]]].toFinset ρ' m' ∧
    ∀ p, m' p = (Dictionary.spec 256).after (fun _ => none)
      ((twoBucketCalls.filter fun c => c.1 = p).map Prod.snd) :=
  calls_buckets (rooted_twoBuckets.holds_newFile rfl rfl (by decide)) (by decide) (by decide)

end AtomKV
