import AtomKV.Layout
import AtomKV.LogReplay
import AtomKV.Views

/-!
# What recovery asks for

`Logger::Recover` checks `current_tx` in front of a Begin, a Commit and a Rollback, and nothing in
front of a call on a bucket. The calls are in order when the records put them between a Begin and
its Commit or Rollback, and name sub-buckets that were opened since.
-/

set_option autoImplicit false

namespace AtomKV

/-! ## The buckets of a transaction -/

/-- The transaction has `n` buckets in `sub_bucket_cache_`, and `F` are the ids in the
`sub_bucket_map_`s. -/
structure Db.Shape (n : Nat) (F : Nat → Bytes → Option Nat) (d : Db) : Prop where
  cache : d.tx.subBucketCache.length = n
  bucket : ∀ id, (d.bucket id).isSome = true ↔ id = kUserRootBucketId ∨ id < n
  entry : ∀ id key, (d.entry id key).map Prod.fst = F id key

namespace Db.Shape

variable {n : Nat} {F : Nat → Bytes → Option Nat} {d : Db} {env : DbEnv}

/-- Nothing but the buckets matters. -/
theorem congr {d' : Db} (h : d.Shape n F) (huser : d'.tx.userBucket = d.tx.userBucket)
    (hcache : d'.tx.subBucketCache = d.tx.subBucketCache) : d'.Shape n F := by
  have hbucket : ∀ id, d'.bucket id = d.bucket id := by
    intro id
    unfold Db.bucket
    rw [huser, hcache]
  refine ⟨by rw [hcache]; exact h.cache, fun id => by rw [hbucket]; exact h.bucket id,
    fun id key => ?_⟩
  rw [← h.entry id key]
  unfold Db.entry
  rw [hbucket]

theorem length_setBucket (d : Db) (id : Nat) (b : BucketImpl) :
    (d.setBucket id b).tx.subBucketCache.length = d.tx.subBucketCache.length := by
  unfold Db.setBucket
  split_ifs
  · rfl
  · exact List.length_set

/-- A bucket is replaced by one with other entries. -/
theorem setBucket {G : Nat → Bytes → Option Nat} {id : Nat} {b₀ b : BucketImpl} (h : d.Shape n F)
    (hb : d.bucket id = some b₀)
    (hself : ∀ key, ((b.subBucketMap.bind (SubBucketMap.lookup key)).map Prod.fst) = G id key)
    (hother : ∀ id' key, id' ≠ id → G id' key = F id' key) : (d.setBucket id b).Shape n G := by
  refine ⟨by rw [length_setBucket, h.cache], fun id' => ?_, fun id' key => ?_⟩
  · rw [← h.bucket id']
    by_cases hid : id' = id
    · subst hid
      rw [Db.bucket_setBucket_self hb, hb]
      simp
    · rw [Db.bucket_setBucket_of_ne hid]
  · by_cases hid : id' = id
    · subst hid
      rw [← hself key]
      unfold Db.entry
      rw [Db.bucket_setBucket_self hb]
      rfl
    · rw [Db.entry_setBucket_of_ne hid, h.entry, hother id' key hid]

/-- The map of a bucket changes. -/
theorem modifyMap {G : Nat → Bytes → Option Nat} {id : Nat} {f : SubBucketMap → SubBucketMap}
    (h : d.Shape n F) (hself : ∀ key b, d.bucket id = some b →
      ((b.subBucketMap.map f).bind (SubBucketMap.lookup key)).map Prod.fst = G id key)
    (hother : ∀ id' key, id' ≠ id ∨ d.bucket id = none → G id' key = F id' key) :
      (d.modifyMap id f).Shape n G := by
  cases hb : d.bucket id with
  | none =>
    unfold Db.modifyMap
    rw [hb]
    refine ⟨h.cache, h.bucket, fun id' key => ?_⟩
    rw [h.entry, hother id' key (.inr hb)]
  | some b =>
    rw [Db.modifyMap_of_bucket hb]
    exact h.setBucket hb (fun key => hself key b hb) fun id' key hid => hother id' key (.inl hid)

/-- The root page id of an entry is assigned. -/
theorem keepsIds {id : Nat} {key : Bytes} {f : Nat × Nat → Nat × Nat} (h : d.Shape n F)
    (hf : ∀ e, (f e).1 = e.1) : (d.modifyMap id (SubBucketMap.modify key f)).Shape n F := by
  refine h.modifyMap (fun key' b hb => ?_) fun _ _ _ => rfl
  rw [← h.entry id key']
  unfold Db.entry
  rw [hb, Option.bind_some]
  cases b.subBucketMap with
  | none => rfl
  | some m =>
    show (SubBucketMap.lookup key' (SubBucketMap.modify key f m)).map Prod.fst =
      (SubBucketMap.lookup key' m).map Prod.fst
    rw [SubBucketMap.lookup_modify]
    split_ifs
    · cases SubBucketMap.lookup key' m with
      | none => rfl
      | some e => exact congrArg some (hf e)
    · rfl

theorem setRootAt (h : d.Shape n F) (root : Nat) (r : RootRef) :
    (d.setRootAt root r).Shape n F := by
  cases r with
  | userRoot => exact h.congr rfl rfl
  | entry parent key => exact h.keepsIds fun _ => rfl

/-! ## The calls on a bucket -/

/-- The tree code does not see the buckets. -/
theorem onTree {α : Type} (id : Nat) (x : TxM α) :
    Exec.Keeps (Db.Shape n F) (Bucket.onTree id x) fun _ => True := by
  intro d hd
  rcases Bucket.onTree_cases d id with ⟨b, root, hb, hroot⟩ | h
  · rw [Bucket.onTree_of_root hb hroot]
    refine ⟨setRootAt ?_ _ _, fun _ _ => trivial⟩
    unfold Db.withTree
    split_ifs
    · exact hd.congr rfl rfl
    · cases d.updateMeta with
      | none => exact hd.congr rfl rfl
      | some m => exact hd.congr rfl rfl
  · rw [h]
    exact ⟨hd, fun _ _ => trivial⟩

theorem appendLog (record : BucketLog) :
    Exec.Keeps (Db.Shape n F) (Bucket.appendLog env record) fun _ => True := by
  unfold Bucket.appendLog
  exact Exec.Keeps.ite (fun _ => Exec.Keeps.change fun d hd => hd.congr rfl rfl) fun _ =>
    Exec.Keeps.pure trivial

theorem put (id : Nat) (key value : Bytes) (isBucket : Bool) :
    Exec.Keeps (Db.Shape n F) (Bucket.put env id key value isBucket) fun _ => True := by
  unfold Bucket.put
  exact (appendLog _).bind fun _ _ => onTree id _

theorem delete (id : Nat) (key : Bytes) :
    Exec.Keeps (Db.Shape n F) (Bucket.delete env id key) fun _ => True := by
  unfold Bucket.delete
  exact (appendLog _).bind fun _ _ => onTree id _

theorem pgidValue (id : Nat) (iter : BTreeIterator) :
    Exec.Keeps (Db.Shape n F) (Bucket.pgidValue env id iter) fun _ => True := by
  unfold Bucket.pgidValue
  refine (onTree id _).bind fun value _ => ?_
  split_ifs
  · exact Exec.Keeps.raise_bind
  · exact Exec.Keeps.pure trivial

/-! ## Opening a sub-bucket -/

/-- The ids with the entry of `key` in the bucket `id`. -/
def withEntry (F : Nat → Bytes → Option Nat) (id : Nat) (key : Bytes) (sub : Nat) (id' : Nat)
    (key' : Bytes) : Option Nat :=
  if id' = id ∧ key' = key then some sub else F id' key'

/-- A bucket is appended to `sub_bucket_cache_`. -/
theorem bucket_append (d : Db) (b : BucketImpl) (id : Nat) :
    Db.bucket { d with tx := { d.tx with subBucketCache := d.tx.subBucketCache ++ [some b] } } id =
      if id ≠ kUserRootBucketId ∧ id = d.tx.subBucketCache.length then some b else d.bucket id := by
  unfold Db.bucket
  by_cases huser : id = kUserRootBucketId
  · rw [if_pos huser, if_pos huser, if_neg fun h => h.1 huser]
  · rw [if_neg huser, if_neg huser]
    dsimp only
    by_cases hlen : id = d.tx.subBucketCache.length
    · rw [if_pos ⟨huser, hlen⟩, hlen, List.getElem?_concat_length]
      rfl
    · rw [if_neg fun h => hlen h.2]
      rcases Nat.lt_or_gt_of_ne hlen with hlt | hgt
      · rw [List.getElem?_append_left hlt]
      · rw [List.getElem?_eq_none (by rw [List.length_append]; exact hgt),
          List.getElem?_eq_none (Nat.le_of_lt hgt)]

theorem newSubBucket (r : RootRef) (w : Bool) :
    Exec.Yields (Db.Shape n F) (Bucket.newSubBucket r w) fun sub d => sub = n ∧
    d.Shape (n + 1) F := by
  intro d hd sub t hrun
  cases hrun
  have hlen := hd.cache
  refine ⟨hlen, ?_, fun id => ?_, fun id key => ?_⟩
  · show (d.tx.subBucketCache ++ [_]).length = n + 1
    rw [List.length_append, hlen]
    rfl
  · rw [bucket_append, hlen]
    split_ifs with h
    · exact iff_of_true rfl (.inr (by omega))
    · rw [hd.bucket]
      constructor
      · rintro (h' | h')
        · exact .inl h'
        · exact .inr (by omega)
      · rintro (h' | h')
        · exact .inl h'
        · refine or_iff_not_imp_left.2 fun huser => ?_
          have hne : id ≠ n := fun heq => h ⟨huser, heq⟩
          omega
  · rw [← hd.entry id key]
    unfold Db.entry
    rw [bucket_append, hlen]
    split_ifs with h
    · -- there was no such bucket
      have hnone : d.bucket id = none := by
        rw [← Option.not_isSome_iff_eq_none, hd.bucket]
        omega
      rw [hnone]
      rfl
    · rfl

/-- The ids after the entry of `key` has been made and filled. -/
theorem withEntry_withEntry {id : Nat} {key : Bytes} (sub sub' : Nat) :
    withEntry (withEntry F id key sub) id key sub' = withEntry F id key sub' := by
  funext id' key'
  unfold withEntry
  split_ifs <;> rfl

/-- The entry of a key of the bucket `id` is made. -/
theorem insertEntry {id : Nat} {key : Bytes} {b : BucketImpl} {m : SubBucketMap} (h : d.Shape n F)
    (hb : d.bucket id = some b) (hm : b.subBucketMap = some m) (hnone : F id key = none)
    (v : Nat × Nat) :
    (d.modifyMap id (SubBucketMap.insert key v)).Shape n (withEntry F id key v.1) := by
  have hentry : ∀ key', (SubBucketMap.lookup key' m).map Prod.fst = F id key' := by
    intro key'
    rw [← h.entry id key']
    unfold Db.entry
    rw [hb, Option.bind_some, hm, Option.bind_some]
  refine h.modifyMap (fun key' b' hb' => ?_) fun id' key' hid => ?_
  · obtain rfl : b = b' := Option.some.inj (hb.symm.trans hb')
    rw [hm, Option.map_some, Option.bind_some]
    unfold withEntry
    by_cases hkey : key' = key
    · subst hkey
      have hlookup : SubBucketMap.lookup key' m = none :=
        Option.map_eq_none_iff.1 ((hentry key').trans hnone)
      rw [if_pos ⟨rfl, rfl⟩, SubBucketMap.lookup_insert hlookup]
      rfl
    · rw [if_neg fun hc => hkey hc.2, SubBucketMap.lookup_insert_of_ne hkey, hentry]
  · unfold withEntry
    refine if_neg fun hc => ?_
    rcases hid with hid | hid
    · exact hid hc.1
    · rw [hb] at hid
      cases hid

/-- The id in an entry is assigned. -/
theorem assignEntry {id sub : Nat} {key : Bytes} (h : d.Shape n F) (hsome : F id key ≠ none) :
    (d.modifyMap id (SubBucketMap.modify key fun e => (sub, e.2))).Shape n
      (withEntry F id key sub) := by
  have hentry : ∀ b, d.bucket id = some b → ∀ key',
      (b.subBucketMap.bind (SubBucketMap.lookup key')).map Prod.fst = F id key' := by
    intro b hb key'
    rw [← h.entry id key']
    unfold Db.entry
    rw [hb, Option.bind_some]
  refine h.modifyMap (fun key' b hb => ?_) fun id' key' hid => ?_
  · have hkey := hentry b hb key'
    cases hm : b.subBucketMap with
    | none =>
      have hself := hentry b hb key
      rw [hm] at hself
      exact absurd hself.symm hsome
    | some m =>
      rw [hm, Option.bind_some] at hkey
      rw [Option.map_some, Option.bind_some, SubBucketMap.lookup_modify]
      unfold withEntry
      by_cases hk : key' = key
      · subst hk
        rw [if_pos rfl, if_pos ⟨rfl, rfl⟩]
        cases hl : SubBucketMap.lookup key' m with
        | none =>
          rw [hl] at hkey
          exact absurd hkey.symm hsome
        | some e => rfl
      · rw [if_neg hk, if_neg fun hc => hk hc.2, hkey]
  · unfold withEntry
    refine if_neg fun hc => ?_
    rcases hid with hid | hid
    · exact hid hc.1
    · have hself := h.entry id key
      unfold Db.entry at hself
      rw [hid] at hself
      exact hsome hself.symm

/-- **Opening a sub-bucket** appends it to `sub_bucket_cache_`, and its entry has its index. -/
theorem openSubBucket (id : Nat) (key : Bytes) (w : Bool) {b : BucketImpl} {m : SubBucketMap}
    (hm : b.subBucketMap = some m) (hnone : F id key = none) :
    Exec.Yields (fun d => d.Shape n F ∧ d.bucket id = some b) (Bucket.openSubBucket env id key w)
      fun _ d => d.Shape (n + 1) (withEntry F id key n) := by
  have hrest : Exec.Yields (Db.Shape n (withEntry F id key 0)) (do
      let sub ← Bucket.newSubBucket (.entry id key) w
      Exec.change fun s => s.modifyMap id (SubBucketMap.modify key fun e => (sub, e.2))
      return sub) fun _ d => d.Shape (n + 1) (withEntry F id key n) := by
    refine (newSubBucket _ w).bind fun sub =>
      (Exec.Yields.change (L := Db.Shape (n + 1) (withEntry F id key n))
      fun d hd => ?_).bind fun _ => Exec.Yields.pure fun _ hd => hd
    obtain ⟨hsub, hd⟩ := hd
    have hassign : Db.Shape (n + 1) (withEntry (withEntry F id key 0) id key sub) _ :=
      hd.assignEntry (by simp [withEntry])
    rw [withEntry_withEntry, hsub] at hassign
    rw [hsub]
    exact hassign
  unfold Bucket.openSubBucket
  refine (Exec.Yields.change (L := Db.Shape n (withEntry F id key 0))
    fun d hd => hd.1.insertEntry hd.2 hm hnone (0, kPageInvalidId)).bind fun _ => ?_
  refine (onTree id _).then_yields fun iter => Exec.Yields.ite (fun _ => ?_) fun _ => ?_
  · refine (put id key _ true).then_yields fun _ => (onTree id _).then_yields fun iter => ?_
    refine (onTree id _).then_yields fun b' => ?_
    exact (Exec.Keeps.require.imp fun _ _ => trivial).then_yields fun _ => hrest
  · refine (onTree id _).then_yields fun b' => Exec.Yields.ite
      (fun _ => Exec.Yields.raise_bind) fun _ => ?_
    refine (pgidValue id iter).then_yields fun root => ?_
    exact (Exec.Keeps.change fun d hd => hd.keepsIds fun _ => rfl).then_yields fun _ => hrest

theorem atSubBucket (id : Nat) :
    Exec.Yields (Db.Shape n F) (Bucket.atSubBucket id) fun b d => d.Shape n F ∧
    d.bucket id = some b := by
  intro d hd b t hrun
  unfold Bucket.atSubBucket at hrun
  cases hb : d.bucket id with
  | none =>
    rw [hb] at hrun
    cases hrun
  | some b' =>
    rw [hb] at hrun
    cases hrun
    exact ⟨hd, hb⟩

/-- **`SubBucket`**, when it returns, has opened the sub-bucket or had done so before. -/
theorem subBucket (id : Nat) (key : Bytes) (w : Bool) :
    Exec.Yields (Db.Shape n F) (Bucket.subBucket env id key w) fun _ d =>
      if F id key = none then d.Shape (n + 1) (withEntry F id key n) else d.Shape n F := by
  unfold Bucket.subBucket
  refine (atSubBucket id).bind fun b => ?_
  have hmap : ∀ d : Db, d.Shape n F ∧ d.bucket id = some b → ∀ key,
      (SubBucketMap.lookup key (b.subBucketMap.getD [])).map Prod.fst = F id key := by
    intro d hd key
    rw [← hd.1.entry id key]
    unfold Db.entry
    rw [hd.2, Option.bind_some]
    cases b.subBucketMap <;> rfl
  refine (Exec.Yields.change (L := fun d => (d.Shape n F ∧
      d.bucket id = some { b with subBucketMap := some (b.subBucketMap.getD []) }) ∧
      (SubBucketMap.lookup key (b.subBucketMap.getD [])).map Prod.fst = F id key)
    fun d hd =>
      ⟨⟨hd.1.setBucket hd.2 (hmap d hd) fun _ _ _ => rfl, Db.bucket_setBucket_self hd.2 _⟩,
      hmap d hd key⟩).bind fun _ => ?_
  have hend : ∀ (sub : Nat) (n : Nat) (F : Nat → Bytes → Option Nat), Exec.Yields (Db.Shape n F) (do
      let _ ← Bucket.atSubBucket sub
      return sub) fun _ d => d.Shape n F := fun sub n F =>
    (atSubBucket sub).bind fun _ => Exec.Yields.pure fun _ hd => hd.1
  cases hlookup : SubBucketMap.lookup key (b.subBucketMap.getD []) with
  | some e =>
    intro d hd sub t hrun
    have hsome : F id key ≠ none := by
      rw [← hd.2]
      exact fun h => by cases h
    rw [if_neg hsome]
    exact hend e.1 n F d hd.1.1 sub t hrun
  | none =>
    intro d hd sub t hrun
    have hnone : F id key = none := hd.2.symm
    rw [if_pos hnone]
    exact ((openSubBucket id key w rfl hnone).bind fun sub => hend sub _ _) d hd.1 sub t hrun

end Db.Shape

/-- The sub-buckets `l`, by parent and key, have been opened in this order. -/
def Db.Opened (l : List (Nat × Bytes)) (d : Db) : Prop :=
  d.Shape l.length fun id key => l.idxOf? (id, key)

namespace Db.Opened

variable {l : List (Nat × Bytes)} {env : DbEnv}

/-- A transaction begins without any. -/
theorem init (pager : Pager) (info : MetaInfo) (log : List BucketLog) (views : List (Nat × Nat))
    (m : Option MetaInfo) (w : Bool) : Db.Opened [] ⟨pager, m, log, views, TxImpl.init info w⟩ := by
  refine ⟨rfl, fun id => ?_, fun id key => ?_⟩
  · unfold Db.bucket
    split_ifs with h
    · exact iff_of_true rfl (.inl h)
    · exact iff_of_false (fun hsome => by cases hsome) fun hor => hor.elim h fun hlt =>
        absurd hlt (Nat.not_lt_zero _)
  · unfold Db.entry Db.bucket
    split_ifs <;> rfl

/-- Which sub-buckets are open after `SubBucket`. -/
def add (l : List (Nat × Bytes)) (x : Nat × Bytes) : List (Nat × Bytes) :=
  if x ∈ l then l else l ++ [x]

theorem idxOf_add {x : Nat × Bytes} (h : x ∉ l) (y : Nat × Bytes) :
    (l ++ [x]).idxOf? y = if y = x then some l.length else l.idxOf? y := by
  unfold List.idxOf?
  rw [List.findIdx?_append]
  by_cases hy : y = x
  · subst hy
    have hnone : l.findIdx? (· == y) = none := List.idxOf?_eq_none_iff.2 h
    rw [hnone, if_pos rfl]
    simp [List.findIdx?_cons]
  · have hxy : (x == y) = false := beq_eq_false_iff_ne.2 fun heq => hy heq.symm
    rw [if_neg hy]
    simp [List.findIdx?_cons, hxy]

theorem subBucket (id : Nat) (key : Bytes) (w : Bool) :
    Exec.Yields (Db.Opened l) (Bucket.subBucket env id key w) fun _ d =>
      d.Opened (add l (id, key)) := by
  intro d hd sub t hrun
  have hshape := Shape.subBucket id key w d hd sub t hrun
  unfold add
  by_cases hmem : (id, key) ∈ l
  · have hsome : l.idxOf? (id, key) ≠ none := fun h => List.idxOf?_eq_none_iff.1 h hmem
    simp only [if_neg hsome] at hshape
    rw [if_pos hmem]
    exact hshape
  · have hnone : l.idxOf? (id, key) = none := List.idxOf?_eq_none_iff.2 hmem
    simp only [if_pos hnone] at hshape
    have hids : (Shape.withEntry (fun id key => l.idxOf? (id, key)) id key l.length) =
        fun id' key' => (l ++ [(id, key)]).idxOf? (id', key') := by
      funext id' key'
      rw [idxOf_add hmem]
      unfold Shape.withEntry
      simp only [Prod.mk.injEq]
    rw [if_neg hmem]
    unfold Opened
    rw [List.length_append, ← hids]
    exact hshape

end Db.Opened

/-! ## What the passes ask for -/

namespace LogCall

/-- The bucket whose id is in the record. -/
def named : LogCall → Option Nat
  | bucket c => some c.bucketId
  | cut id => some id
  | _ => none

/-- The pass asks the `TxManager` for its update transaction. -/
def Asks (s : Recovering) : LogCall → Prop
  | bucket _ => s.init = true
  | cut _ => s.init = true
  | rollback => s.init = true ∧ s.currentTx = true
  | commit => s.init = true ∧ s.currentTx = true
  | _ => False

/-- The indices that `AtSubBucket` is called with: the id in the record, and the id of the
sub-bucket if it has been opened before. A new sub-bucket is the last one in `sub_bucket_cache_`. -/
def indices (d : Db) (c : LogCall) : List Nat :=
  (c.named.filter (· ≠ kUserRootBucketId)).toList ++ match c with
    | bucket (.subBucket id key) => ((d.entry id key).map Prod.fst).toList
    | _ => []

end LogCall

namespace Recovering

/-- The pass finds what it asks for: an open transaction of `Recover` itself, and the
sub-buckets. -/
structure Finds (s : Recovering) (c : LogCall) : Prop where
  opened : c.Asks s → s.currentTx = true ∧ s.updateTx.isSome = true
  cached : ∀ tx ∈ s.updateTx, ∀ i ∈ c.indices (s.database tx), i < tx.subBucketCache.length

variable (env : DbEnv)

/-- The state after passes none of which throws or ends the loop. -/
def reach (s : Recovering) : List LogCall → Option Recovering
  | [] => some s
  | c :: cs => match s.step env c with
    | .ok (t, false) => t.reach cs
    | _ => none

/-- **Recovery validates its input**: every pass that it comes to finds what it asks for. -/
def Validates (s : Recovering) (records : List Bytes) : Prop :=
  ∀ before c after t, readCalls records = before ++ c :: after →
    s.reach env before = some t → t.Finds c

end Recovering

/-- What the records say that have been read: a log that begins with its txid, and the sub-buckets
of the transaction that is open. -/
structure LogPosition where
  init : Bool
  opened : Option (List (Nat × Bytes))

namespace LogPosition

def next (p : LogPosition) : LogCall → LogPosition
  | .walTxId _ => { p with init := true }
  | .begin => { p with opened := some [] }
  | .rollback => { p with opened := none }
  | .commit => { p with opened := none }
  | .bucket (.subBucket id key) =>
    { p with opened := p.opened.map fun l => Db.Opened.add l (id, key) }
  | _ => p

/-- The position behind some records. -/
def after (calls : List LogCall) : LogPosition := calls.foldl next ⟨false, none⟩

/-- A call on a bucket stands between a Begin and its Commit or Rollback, and the bucket is the user
bucket or one of those opened since the Begin. -/
def InPlace (p : LogPosition) (c : LogCall) : Prop :=
  p.init = true → ∀ id ∈ c.named, ∃ l ∈ p.opened, id = kUserRootBucketId ∨ id < l.length

end LogPosition

/-! ## The loop follows the records -/

namespace Recovering

variable {env : DbEnv} {s t : Recovering}

theorem call_eq_ok {x : DbM Unit} (h : s.call x = .ok t) :
    ∃ tx d, s.updateTx = some tx ∧ x (s.database tx) = (.ok (), d) ∧
      t = { s with pager := d.pager, updateTx := some d.tx } := by
  unfold call at h
  cases htx : s.updateTx with
  | none =>
    rw [htx] at h
    cases h
  | some tx =>
    rw [htx] at h
    dsimp only at h
    cases hrun : x (s.database tx) with
    | mk r d =>
      rw [hrun] at h
      cases r with
      | ok u =>
        cases h
        exact ⟨tx, d, rfl, hrun, rfl⟩
      | error e => cases h

theorem map_eq_ok {x : Except Err Recovering} {e e' : Bool}
    (h : (x.map fun t => (t, e)) = .ok (t, e')) : x = .ok t ∧ e = e' := by
  cases x with
  | ok a =>
    cases h
    exact ⟨rfl, rfl⟩
  | error err => cases h

end Recovering

/-- The state that the loop has at this position of the log. -/
structure LogPosition.Mirrors (p : LogPosition) (s : Recovering) : Prop where
  init : s.init = p.init
  current : s.currentTx = p.opened.isSome
  manager : s.updateTx.isSome = p.opened.isSome
  unread : s.init = false → p.opened = none
  buckets : ∀ l ∈ p.opened, ∀ tx ∈ s.updateTx, (s.database tx).Opened l

namespace LogPosition.Mirrors

variable {p : LogPosition} {s t : Recovering} {env : DbEnv}

theorem start (info : MetaInfo) (pager : Pager) :
    Mirrors ⟨false, none⟩ (Recovering.start info pager) :=
  ⟨rfl, rfl, rfl, fun _ => rfl, fun _ h => by cases h⟩

/-- A call on a bucket. -/
theorem call {x : DbM Unit} {f : List (Nat × Bytes) → List (Nat × Bytes)} (h : p.Mirrors s)
    (hx : ∀ l, Exec.Yields (Db.Opened l) x fun _ => Db.Opened (f l)) (hrun : s.call x = .ok t) :
    Mirrors { p with opened := p.opened.map f } t := by
  obtain ⟨tx, d, htx, hcall, rfl⟩ := Recovering.call_eq_ok hrun
  refine ⟨h.init, h.current.trans Option.isSome_map.symm, ?_, fun hinit => ?_,
    fun l' hl' tx' htx' => ?_⟩
  · rw [Option.isSome_map, ← h.manager, htx]
    rfl
  · rw [h.unread hinit]
    rfl
  · obtain ⟨l, hl, rfl⟩ := Option.map_eq_some_iff.1 hl'
    cases htx'
    exact (hx l _ (h.buckets l hl tx htx) () d hcall).congr rfl rfl

/-- What a record makes `Recover` do with a bucket opens the sub-bucket that it names. -/
theorem replay (c : BucketLog) (h : p.Mirrors s) (hrun : s.call (Recovering.replay env c) = .ok t) :
    Mirrors (p.next (.bucket c)) t := by
  -- `AtSubBucket` reads only
  have hat : ∀ (l l' : List (Nat × Bytes)) (id : Nat) (x : DbM Unit),
      Exec.Yields (Db.Opened l) x (fun _ => Db.Opened l') →
      Exec.Yields (Db.Opened l) (do let _ ← Bucket.atSubBucket id; x) fun _ => Db.Opened l' :=
    fun l l' bucketId x hx => (Db.Shape.atSubBucket bucketId).bind fun _ d hd => hx d hd.1
  cases c with
  | subBucket bucketId key =>
    refine h.call (f := fun l => Db.Opened.add l (bucketId, key)) (fun l => ?_) hrun
    have hsub : Exec.Yields (Db.Opened l) (do let _ ← Bucket.subBucket env bucketId key true)
        fun _ => Db.Opened (Db.Opened.add l (bucketId, key)) :=
      (Db.Opened.subBucket bucketId key true).bind fun _ => Exec.Yields.pure fun _ hd => hd
    exact hat _ _ bucketId _ hsub
  | put bucketId key value isBucket =>
    have hkeep : ∀ l, Exec.Yields (Db.Opened l) (Bucket.put env bucketId key value isBucket)
        fun _ => Db.Opened l :=
      fun l d hd u t hrun => ((Db.Shape.put bucketId key value isBucket).yields d hd u t hrun).2
    have hput := h.call (f := fun l => l) (fun l => hat _ _ bucketId _ (hkeep l)) hrun
    rw [Option.map_id'] at hput
    exact hput
  | delete bucketId key =>
    have hkeep : ∀ l, Exec.Yields (Db.Opened l) (do let _ ← Bucket.delete env bucketId key) fun _ =>
        Db.Opened l :=
      fun l => (Db.Shape.delete bucketId key).then_yields fun _ => Exec.Yields.pure fun _ hd => hd
    have hdelete := h.call (f := fun l => l) (fun l => hat _ _ bucketId _ (hkeep l)) hrun
    rw [Option.map_id'] at hdelete
    exact hdelete

theorem begin (h : p.Mirrors s) (hinit : s.init = true) (hrun : s.update = .ok t) :
    Mirrors { p with opened := some [] } t := by
  unfold Recovering.update at hrun
  dsimp only at hrun
  split_ifs at hrun
  cases hrun
  refine ⟨h.init, rfl, rfl, fun hfalse => ?_, fun l hl tx htx => ?_⟩
  · rw [hinit] at hfalse
    cases hfalse
  · cases hl
    cases htx
    exact Db.Opened.init ..

/-- The transaction is over. -/
theorem close (h : p.Mirrors s) (info : MetaInfo) (pager : Pager) :
    Mirrors { p with opened := none }
      { s with metaStruct := info, pager, updateTx := none, currentTx := false } :=
  ⟨h.init, rfl, rfl, fun _ => rfl, fun _ hl => by cases hl⟩

/-- **One pass** keeps the state and the position together. -/
theorem step {c : LogCall} (h : p.Mirrors s) (hrun : s.step env c = .ok (t, false)) :
    Mirrors (p.next c) t := by
  -- Every record is accepted from the same position by both, or it ends the pass.
  cases c with
  | walTxId txid =>
    simp only [Recovering.step] at hrun
    split_ifs at hrun with hinit
    injection hrun with hrun
    obtain ⟨rfl, -⟩ := Prod.mk.inj hrun
    exact ⟨rfl, h.current, h.manager, (fun hfalse => nomatch hfalse), h.buckets⟩
  | begin =>
    simp only [Recovering.step] at hrun
    split_ifs at hrun with hinit hcurrent
    exact h.begin hinit (Recovering.map_eq_ok hrun).1
  | rollback =>
    simp only [Recovering.step] at hrun
    split_ifs at hrun with hinit hcurrent
    have hroll := (Recovering.map_eq_ok hrun).1
    unfold Recovering.rollBack at hroll
    cases htx : s.updateTx with
    | none => simp [htx] at hroll
    | some tx =>
      simp only [htx] at hroll
      cases hroll
      exact h.close s.metaStruct _
  | commit =>
    simp only [Recovering.step] at hrun
    split_ifs at hrun with hinit hcurrent
    obtain ⟨s₁, hwrite, hfinish⟩ := except_bind_eq_ok (Recovering.map_eq_ok hrun).1
    obtain ⟨tx, d, -, -, rfl⟩ := Recovering.call_eq_ok hwrite
    cases hfinish
    exact h.close _ _
  | bucket c =>
    simp only [Recovering.step] at hrun
    split_ifs at hrun with hinit
    exact h.replay c (Recovering.map_eq_ok hrun).1
  | cut id =>
    simp only [Recovering.step] at hrun
    split_ifs at hrun with hinit
    cases (Recovering.map_eq_ok hrun).2
  | malformed type =>
    cases type <;> cases hrun
  | unknown =>
    cases hrun
    exact h

/-- **A run of passes.** -/
theorem reach {calls : List LogCall} (h : p.Mirrors s) (hrun : s.reach env calls = some t) :
    Mirrors (calls.foldl LogPosition.next p) t := by
  induction calls generalizing p s with
  | nil =>
    cases hrun
    exact h
  | cons c calls ih =>
    unfold Recovering.reach at hrun
    cases hstep : s.step env c with
    | error e =>
      rw [hstep] at hrun
      cases hrun
    | ok r =>
      obtain ⟨t₁, stop⟩ := r
      rw [hstep] at hrun
      cases stop with
      | true => cases hrun
      | false => exact ih (h.step hstep) hrun

/-- The sub-buckets that were opened are the ones in the cache. -/
theorem length_cache {l : List (Nat × Bytes)} {tx : TxImpl} (h : p.Mirrors s) (hl : l ∈ p.opened)
    (htx : tx ∈ s.updateTx) : tx.subBucketCache.length = l.length := (h.buckets l hl tx htx).cache

/-- The id in an entry is an index of the cache. -/
theorem entry_lt {l : List (Nat × Bytes)} {tx : TxImpl} {id i : Nat} {key : Bytes} (h : p.Mirrors s)
    (hl : l ∈ p.opened) (htx : tx ∈ s.updateTx)
    (hi : ((s.database tx).entry id key).map Prod.fst = some i) : i < tx.subBucketCache.length := by
  have hentry := (h.buckets l hl tx htx).entry id key
  rw [hi] at hentry
  obtain ⟨hlt, -⟩ := List.idxOf?_eq_some_iff.1 hentry.symm
  rw [h.length_cache hl htx]
  exact hlt

/-- A pass that names a bucket. -/
theorem finds_named {c : LogCall} {id : Nat} (h : p.Mirrors s) (hname : c.named = some id)
    (hasks : c.Asks s ↔ s.init = true) : s.Finds c ↔ p.InPlace c := by
  constructor
  · intro hfinds hinit id' hid'
    obtain rfl : id = id' := Option.some.inj (hname.symm.trans hid')
    obtain ⟨-, htx⟩ := hfinds.opened (hasks.2 (h.init.trans hinit))
    have hopened := h.manager.symm.trans htx
    obtain ⟨l, hl⟩ := Option.isSome_iff_exists.1 hopened
    obtain ⟨tx, htx⟩ := Option.isSome_iff_exists.1 htx
    refine ⟨l, hl, or_iff_not_imp_left.2 fun hne => ?_⟩
    rw [← h.length_cache hl htx]
    refine hfinds.cached tx htx id (List.mem_append_left _ ?_)
    rw [hname, Option.mem_toList, Option.filter_eq_some_iff]
    exact ⟨rfl, by simpa using hne⟩
  · intro hplace
    refine ⟨fun hask => ?_, fun tx htx i hi => ?_⟩
    · obtain ⟨l, hl, -⟩ := hplace (h.init.symm.trans (hasks.1 hask)) id hname
      have hopened : p.opened.isSome = true := Option.isSome_iff_exists.2 ⟨l, hl⟩
      exact ⟨h.current.trans hopened, h.manager.trans hopened⟩
    · have hopened : p.opened.isSome = true :=
        h.manager.symm.trans (Option.isSome_iff_exists.2 ⟨tx, htx⟩)
      have hinit : s.init = true := by
        by_contra hfalse
        rw [h.unread (Bool.eq_false_iff.2 hfalse)] at hopened
        cases hopened
      obtain ⟨l, hl, hid⟩ := hplace (h.init.symm.trans hinit) id hname
      rcases List.mem_append.1 hi with hi | hi
      · -- the id in the record
        rw [hname, Option.mem_toList, Option.filter_eq_some_iff] at hi
        obtain ⟨hi, hne⟩ := hi
        obtain rfl : id = i := Option.some.inj hi
        rw [h.length_cache hl htx]
        exact hid.resolve_left (by simpa using hne)
      · -- the id in the entry
        cases c with
        | bucket call =>
          cases call with
          | subBucket id' key => exact h.entry_lt hl htx (Option.mem_toList.1 hi)
          | put id' key value isBucket => cases hi
          | delete id' key => cases hi
        | _ => cases hi

/-- A pass that names none. -/
theorem finds_unnamed {c : LogCall} (h : p.Mirrors s) (hname : c.named = none)
    (hasks : c.Asks s → s.currentTx = true) : s.Finds c ↔ p.InPlace c := by
  refine iff_of_true ⟨fun hask => ?_, fun tx htx i hi => ?_⟩ fun _ id hid => ?_
  · have hcurrent := hasks hask
    exact ⟨hcurrent, h.manager.trans (h.current.symm.trans hcurrent)⟩
  · cases c with
    | bucket c => cases hname
    | cut id => cases hname
    | _ => exact absurd hi List.not_mem_nil
  · rw [hname] at hid
    cases hid

/-- **A pass finds what it asks for** when its record is in place. -/
theorem finds_iff (h : p.Mirrors s) (c : LogCall) : s.Finds c ↔ p.InPlace c := by
  cases c with
  | bucket c => exact h.finds_named rfl Iff.rfl
  | cut id => exact h.finds_named rfl Iff.rfl
  | rollback => exact h.finds_unnamed rfl fun hask => hask.2
  | commit => exact h.finds_unnamed rfl fun hask => hask.2
  | walTxId txid => exact h.finds_unnamed rfl fun hask => hask.elim
  | begin => exact h.finds_unnamed rfl fun hask => hask.elim
  | malformed type => exact h.finds_unnamed rfl fun hask => hask.elim
  | unknown => exact h.finds_unnamed rfl fun hask => hask.elim

end LogPosition.Mirrors

/-- **Recovery validates its input** exactly when every record of a call on a bucket that it comes
to is in place. -/
theorem Recovering.validates_iff (env : DbEnv) (info : MetaInfo) (pager : Pager)
    (records : List Bytes) : (start info pager).Validates env records ↔
      ∀ before c after, readCalls records = before ++ c :: after →
        ((start info pager).reach env before).isSome → (LogPosition.after before).InPlace c := by
  constructor
  · intro h before c after hread hreach
    obtain ⟨t, ht⟩ := Option.isSome_iff_exists.1 hreach
    exact ((LogPosition.Mirrors.start info pager).reach ht).finds_iff c |>.1
      (h before c after t hread ht)
  · intro h before c after t hread ht
    have hplace := h before c after hread (Option.isSome_iff_exists.2 ⟨t, ht⟩)
    exact ((LogPosition.Mirrors.start info pager).reach ht).finds_iff c |>.2 hplace

section Example

/-- The log begins with the txid 5, and a Put into the user bucket follows without a Begin. -/
def putFirst : List Bytes := [[0, 5, 0, 0, 0, 0, 0, 0, 0], [6, 255, 255, 255, 255], [1], [2]]

/-- The Put is in a transaction, and goes to a bucket 7 that no record has opened. -/
def putNowhere : List Bytes := [[0, 5, 0, 0, 0, 0, 0, 0, 0], [1], [6, 7, 0, 0, 0], [1], [2]]

def logEnv : DbEnv := ⟨smallEnv, .kWal⟩

def emptyPager : Pager := ⟨fun _ => .raw [], [], [], []⟩

/-- **Neither log is refused** before the call is made. -/
theorem Recovering.not_validates : ¬ (start freshMeta emptyPager).Validates logEnv putFirst ∧
    ¬ (start freshMeta emptyPager).Validates logEnv putNowhere := by
  constructor
  · intro h
    have hfinds :=
      h [.walTxId 5] (.bucket (.put kUserRootBucketId [1] [2] false)) [] _ (by decide) rfl
    exact absurd (hfinds.opened rfl).1 (by decide)
  · intro h
    have hfinds := h [.walTxId 5, .begin] (.bucket (.put 7 [1] [2] false)) [] _ (by decide) rfl
    exact absurd (hfinds.cached _ rfl 7 (by decide)) (by decide)

end Example

end AtomKV
