import AtomKV.BucketCalls
import AtomKV.LogValidation

/-!
# Opening sub-buckets

`BucketImpl::SubBucket` on a key that holds a bucket makes an entry with the root page of the
record; on a key that is not there it puts a record without a root page. Either way the bucket is
open afterwards, and the buckets that were open before are as they were.
-/

set_option autoImplicit false

namespace AtomKV

/-! ## What a lookup says of `Get` -/

section Lookup

variable {env : Env} {key value : Bytes} {isBucket : Bool} {t t' : TxState}

theorem BTree.get_of_lookup (h : BTree.lookup env key t = (.ok (some (value, isBucket)), t')) :
    ∃ iter, BTree.get env key t = (.ok iter, t) ∧ ¬ iter.isEnd ∧
      BTreeIterator.value env iter t = (.ok value, t) ∧
      BTreeIterator.isBucket iter t = (.ok isBucket, t) := by
  unfold BTree.lookup at h
  obtain ⟨iter, hget, hrest⟩ := (Reads.get env key).bind_eq_ok h
  by_cases hstatus : iter.status = .kEq
  · rw [if_neg (not_not.2 hstatus)] at hrest
    obtain ⟨v, hvalue, hrest⟩ := (Reads.iterValue env iter).bind_eq_ok hrest
    obtain ⟨b, hflag, hrest⟩ := (Reads.iterIsBucket iter).bind_eq_ok hrest
    cases hrest
    refine ⟨iter, hget, ?_, hvalue, hflag⟩
    rintro (hstack | hinvalid)
    · -- without a leaf the flag could not be read
      unfold BTreeIterator.isBucket BTreeIterator.getLeafNode at hflag
      rw [if_pos (.inl hstack)] at hflag
      cases hflag
    · rw [hstatus] at hinvalid
      cases hinvalid
  · rw [if_pos hstatus] at hrest
    cases hrest

theorem BTree.get_of_lookup_none (h : BTree.lookup env key t = (.ok none, t')) : ∃ iter,
    BTree.get env key t = (.ok iter, t) ∧ iter.isEnd := by
  unfold BTree.lookup at h
  obtain ⟨iter, hget, hrest⟩ := (Reads.get env key).bind_eq_ok h
  refine ⟨iter, hget, ?_⟩
  by_cases hstatus : iter.status = .kEq
  · rw [if_neg (not_not.2 hstatus)] at hrest
    obtain ⟨v, -, hrest⟩ := (Reads.iterValue env iter).bind_eq_ok hrest
    obtain ⟨b, -, hrest⟩ := (Reads.iterIsBucket iter).bind_eq_ok hrest
    cases hrest
  · unfold BTree.get at hget
    obtain ⟨iter', -, hget⟩ := (Reads.lowerBound env key).bind_eq_ok hget
    by_cases hstatus' : iter'.status = .kEq
    · rw [if_neg (not_not.2 hstatus')] at hget
      cases hget
      exact absurd hstatus' hstatus
    · rw [if_pos hstatus'] at hget
      cases hget
      exact .inl rfl

end Lookup

/-! ## A bucket is added -/

/-- `TxImpl::NewSubBucket`, and the id goes to the entry. -/
def Db.addBucket (s : Db) (id : Nat) (key : Bytes) (writable : Bool) : Db :=
  Db.modifyMap { s with
      tx :=
        { s.tx with subBucketCache := s.tx.subBucketCache ++
          [some ⟨.entry id key, writable, none⟩] } } id
    (SubBucketMap.modify key fun e => (s.tx.subBucketCache.length, e.2))

namespace Db

variable {s : Db} {w : List BucketPath} {ρ : BucketPath → Nat} {id i root : Nat} {p : BucketPath}
  {key : Bytes} {writable : Bool}

theorem sameStore_addBucket (s : Db) (id : Nat) (key : Bytes) (writable : Bool) :
    s.SameStore (s.addBucket id key writable) := by
  have hsame := SameStore.modifyMap { s with
    tx :=
      { s.tx with subBucketCache := s.tx.subBucketCache ++
        [some ⟨.entry id key, writable, none⟩] } } id
    (SubBucketMap.modify key fun e => (s.tx.subBucketCache.length, e.2))
  exact ⟨hsame.pager, hsame.updateMeta, hsame.log, hsame.info, hsame.writable⟩

theorem refOf_addBucket (h : s.tx.subBucketCache.length < kUserRootBucketId) (i : Nat) :
    (s.addBucket id key writable).refOf i =
      if i = s.tx.subBucketCache.length then some (.entry id key) else s.refOf i := by
  unfold addBucket
  rw [refOf_modifyMap]
  unfold refOf
  rw [Shape.bucket_append]
  by_cases hi : i = s.tx.subBucketCache.length
  · rw [if_pos hi, if_pos ⟨hi ▸ Nat.ne_of_lt h, hi⟩]
    rfl
  · rw [if_neg hi, if_neg fun hc => hi hc.2]

theorem entry_addBucket (s : Db) (id : Nat) (key : Bytes) (writable : Bool) (i : Nat) (k : Bytes) :
    (s.addBucket id key writable).entry i k = if i = id ∧ k = key then
      (s.entry i k).map fun e => (s.tx.subBucketCache.length, e.2) else s.entry i k := by
  have hsame : entry { s with
      tx :=
        { s.tx with subBucketCache := s.tx.subBucketCache ++
          [some ⟨.entry id key, writable, none⟩] } } i k =
        s.entry i k := by
    unfold entry
    rw [Shape.bucket_append]
    split_ifs with hi
    · -- there was no such bucket
      have hnone : s.bucket i = none := by
        unfold bucket
        rw [if_neg hi.1, hi.2, List.getElem?_eq_none (Nat.le_refl _)]
        rfl
      rw [hnone]
      rfl
    · rfl
  unfold addBucket
  rw [entry_modify, hsame]

/-- **One more bucket is open.** -/
theorem Rooted.addBucket (h : s.Rooted w ρ) (hp : pathOf w id = some p) (hq : p ++ [key] ∉ w)
    (he : s.entry id key = some (i, root)) (hfew : w.length + 1 < kUserRootBucketId)
    (writable : Bool) : (s.addBucket id key writable).Rooted (w ++ [p ++ [key]])
      (Function.update ρ (p ++ [key]) root) := by
  have hlength := h.cached.length
  have hlt : s.tx.subBucketCache.length < kUserRootBucketId := hlength ▸ h.cached.few
  have hsame := s.sameStore_addBucket id key writable
  have hentry : ∀ id' key', ¬ (id' = id ∧ key' = key) →
      (s.addBucket id key writable).entry id' key' = s.entry id' key' := by
    intro id' key' hne
    rw [entry_addBucket, if_neg hne]
  have hnew : (s.addBucket id key writable).entry id key = some (w.length, root) := by
    rw [entry_addBucket, if_pos ⟨rfl, rfl⟩, he, hlength]
    rfl
  -- Only the reference at the end of the cache is new.
  have href : ∀ i, i ≠ w.length → (s.addBucket id key writable).refOf i = s.refOf i := by
    intro i hi
    rw [refOf_addBucket hlt, hlength, if_neg hi]
  have hrefNew : (s.addBucket id key writable).refOf w.length = some (.entry id key) := by
    rw [refOf_addBucket hlt, hlength, if_pos rfl]
  have huser : kUserRootBucketId ≠ w.length := Nat.ne_of_gt h.cached.few
  refine ⟨⟨?_, ?_, ?_, (href _ huser).trans h.cached.user, fun i p' hi => ?_⟩, fun id' p' hp' => ?_⟩
  · obtain ⟨hroot, hw⟩ := List.nodup_cons.1 h.cached.nodup
    rw [List.nodup_cons, List.nodup_append]
    refine ⟨fun hmem => ?_, hw, List.nodup_singleton _, fun x hx y hy heq => ?_⟩
    · rcases List.mem_append.1 hmem with hmem | hmem
      · exact hroot hmem
      · simp at hmem
    · rw [List.mem_singleton.1 hy] at heq
      exact hq (heq ▸ hx)
  · rw [List.length_append]
    exact hfew
  · unfold Db.addBucket
    rw [length_modifyMap, List.length_append, List.length_append, hlength]
    rfl
  · rcases Nat.lt_or_ge i w.length with hlt | hge
    · rw [List.getElem?_append_left hlt] at hi
      obtain ⟨id', q', key', root', hq', hp', hr, -, he'⟩ := h.above_of_entries hp hq hentry hi
      exact ⟨id', q', key', root', pathOf_append hq' _, hp',
        (href i (Nat.ne_of_lt hlt)).trans hr, he'⟩
    · rw [List.getElem?_append_right hge] at hi
      have hzero : i - w.length = 0 := by
        have hlen := (List.getElem?_eq_some_iff.1 hi).1
        rw [List.length_singleton] at hlen
        omega
      obtain rfl : i = w.length := by omega
      rw [Nat.sub_self] at hi
      exact ⟨id, p, key, root, pathOf_append hp _, (Option.some.inj hi).symm, hrefNew, hnew⟩
  -- A path that was open before keeps its root; the new one has the root of the entry.
  · rcases pathOf_concat hp' with hold | ⟨rfl, rfl⟩
    · have hne : p' ≠ p ++ [key] := by
        rintro rfl
        rcases List.mem_cons.1 (mem_of_pathOf hold) with hnil | hmem
        · simp at hnil
        · exact hq hmem
      have hid : id' ≠ w.length := by
        rintro rfl
        unfold pathOf at hold
        rw [if_neg huser.symm, List.getElem?_eq_none (Nat.le_refl _)] at hold
        cases hold
      rw [Function.update_of_ne hne]
      exact h.rootOf_of_entries hp hq hentry hsame hold (href id' hid)
    · unfold rootOf
      rw [hrefNew, Function.update_self]
      show ((s.addBucket id key writable).entry id key).map Prod.snd = _
      rw [hnew]
      rfl

theorem keys_addBucket (s : Db) (id : Nat) (key : Bytes) (writable : Bool) (i : Nat) :
    (s.addBucket id key writable).keys i = s.keys i := by
  unfold addBucket
  rw [keys_modify]
  unfold keys
  rw [Shape.bucket_append]
  split_ifs with hi
  · -- there was no such bucket
    have hnone : s.bucket i = none := by
      unfold bucket
      rw [if_neg hi.1, hi.2, List.getElem?_eq_none (Nat.le_refl _)]
      rfl
    rw [hnone]
    rfl
  · rfl

theorem Listed.addBucket {s' : Db} (h : s.Listed w) (hp : pathOf w id = some p)
    (hentry : ∀ id' key', ¬ (id' = id ∧ key' = key) →
      (s'.entry id' key').map Prod.fst = (s.entry id' key').map Prod.fst)
    (hnew : (s'.entry id key).map Prod.fst = some w.length)
    (hdistinct : ∀ id', (s'.keys id').Nodup) : s'.Listed (w ++ [p ++ [key]]) := by
  refine ⟨fun id' key' e he => ?_, hdistinct⟩
  by_cases heq : id' = id ∧ key' = key
  · obtain ⟨rfl, rfl⟩ := heq
    rw [he] at hnew
    refine ⟨p, pathOf_append hp _, ?_⟩
    rw [show e.1 = w.length from Option.some.inj hnew, List.getElem?_concat_length]
  · have hid := hentry id' key' heq
    rw [he] at hid
    obtain ⟨e', he', hfst⟩ := Option.map_eq_some_iff.1 hid.symm
    obtain ⟨q, hq, hw⟩ := h.opened id' key' e' he'
    rw [hfst] at hw
    exact ⟨q, pathOf_append hq _, by
      rw [List.getElem?_append_left (List.getElem?_eq_some_iff.1 hw).1]; exact hw⟩

end Db

/-! ## `SubBucket` -/

/-- The bucket with an entry for the key. -/
def BucketImpl.withEntry (b : BucketImpl) (key : Bytes) : BucketImpl :=
  { b with subBucketMap := some (SubBucketMap.insert key (0, kPageInvalidId)
    (b.subBucketMap.getD [])) }

/-- The state after the entry of the key has been made. -/
def Db.makeEntry (s : Db) (id : Nat) (key : Bytes) : Db :=
  Db.modifyMap (match s.bucket id with
    | some b => s.setBucket id { b with subBucketMap := some (b.subBucketMap.getD []) }
    | none => s) id (SubBucketMap.insert key (0, kPageInvalidId))

namespace Bucket

variable {env : DbEnv} {s : Db} {id : Nat} {key : Bytes} {b : BucketImpl} (writable : Bool)

theorem makeEntry_eq (hb : s.bucket id = some b) : s.makeEntry id key = s.setBucket id
    (b.withEntry key) := by
  unfold Db.makeEntry
  rw [hb]
  exact View.modifyMap_insert hb _

/-- The first step of opening a bucket. -/
theorem modifyMap_setBucket (hb : s.bucket id = some b) :
    (s.setBucket id { b with subBucketMap := some (b.subBucketMap.getD []) }).modifyMap id
      (SubBucketMap.insert key (0, kPageInvalidId)) = s.makeEntry id key := by
  rw [View.modifyMap_insert hb, makeEntry_eq hb]
  rfl

/-- The end of `SubBucket` for a bucket that was not open. -/
def finishOpen (id : Nat) (key : Bytes) (writable : Bool) : DbM Nat := do
  let sub ← newSubBucket (.entry id key) writable
  Exec.change fun s => s.modifyMap id (SubBucketMap.modify key fun e => (sub, e.2))
  return sub

theorem finishOpen_eq (s : Db) : finishOpen id key writable s =
    (.ok s.tx.subBucketCache.length, s.addBucket id key writable) := rfl

/-- The path through `SubBucket` when the bucket is not open. -/
theorem subBucket_eq {t : Db} {sub : Nat} (hb : s.bucket id = some b)
    (hnone : s.entry id key = none) (hopen : openSubBucket env id key writable
      (s.setBucket id { b with subBucketMap := some (b.subBucketMap.getD []) }) =
      (.ok sub, t)) (hsub : (t.bucket sub).isSome) :
        subBucket env id key writable s = (.ok sub, t) := by
  have hat : atSubBucket id s = (.ok b, s) := by
    simp only [atSubBucket, hb]
  have hlookup : SubBucketMap.lookup key (b.subBucketMap.getD []) = none := by
    unfold Db.entry at hnone
    rw [hb, Option.bind_some] at hnone
    cases hm : b.subBucketMap with
    | none => rfl
    | some m =>
      rw [hm] at hnone
      exact hnone
  obtain ⟨b', hb'⟩ := Option.isSome_iff_exists.1 hsub
  have hat' : atSubBucket sub t = (.ok b', t) := by
    simp only [atSubBucket, hb']
  unfold subBucket
  rw [Exec.bind_of_ok hat, Exec.change_bind]
  simp only [hlookup]
  rw [Exec.bind_of_ok hopen, Exec.bind_of_ok hat']
  rfl

/-- The key holds a bucket. -/
theorem openSubBucket_of_record {iter : BTreeIterator} {root : Nat} (hb : s.bucket id = some b)
    (hget : get env id key (s.makeEntry id key) = (.ok iter, s.makeEntry id key))
    (hiter : ¬ iter.isEnd) (hflag : onTree id (BTreeIterator.isBucket iter) (s.makeEntry id key) =
      (.ok true, s.makeEntry id key))
    (hroot : pgidValue env id iter (s.makeEntry id key) = (.ok root, s.makeEntry id key)) :
    openSubBucket env id key writable
      (s.setBucket id { b with subBucketMap := some (b.subBucketMap.getD []) }) =
      finishOpen id key writable
        ((s.makeEntry id key).modifyMap id (SubBucketMap.modify key fun e => (e.1, root))) := by
  unfold openSubBucket
  rw [Exec.change_bind, modifyMap_setBucket hb, Exec.bind_of_ok hget, if_neg hiter,
    Exec.bind_of_ok hflag, if_neg (by simp)]
  exact Exec.bind_of_ok hroot

/-- The key is not there. -/
theorem openSubBucket_of_absent {iter iter' : BTreeIterator} {t : Db} (hb : s.bucket id = some b)
    (hget : get env id key (s.makeEntry id key) = (.ok iter, s.makeEntry id key))
    (hiter : iter.isEnd)
    (hput : put env id key (Pager.encodeU32 kPageInvalidId) true (s.makeEntry id key) = (.ok (), t))
    (hget' : get env id key t = (.ok iter', t))
    (hflag : onTree id (BTreeIterator.isBucket iter') t = (.ok true, t)) :
    openSubBucket env id key writable
      (s.setBucket id { b with subBucketMap := some (b.subBucketMap.getD []) }) =
      finishOpen id key writable t := by
  unfold openSubBucket
  rw [Exec.change_bind, modifyMap_setBucket hb, Exec.bind_of_ok hget, if_pos hiter,
    Exec.bind_of_ok hput, Exec.bind_of_ok hget', Exec.bind_of_ok hflag, Exec.require_bind rfl]
  rfl

end Bucket

/-! ## What a call of `SubBucket` does -/

namespace Db.Rooted

variable {env : DbEnv} {s : Db} {w : List BucketPath} {ρ : BucketPath → Nat} {id i : Nat}
  {p : BucketPath} {key : Bytes}

theorem bucket (h : s.Rooted w ρ) (hp : pathOf w id = some p) : ∃ b, s.bucket id = some b := by
  obtain ⟨r, hr, -⟩ := h.cached.ref hp
  obtain ⟨b, hb, -⟩ := Option.map_eq_some_iff.1 hr
  exact ⟨b, hb⟩

/-- A bucket that is open is not opened again. -/
theorem subBucket_of_open (h : s.Rooted w ρ) (hp : pathOf w id = some p)
    (hi : w[i]? = some (p ++ [key])) (writable : Bool) :
      Bucket.subBucket env id key writable s = (.ok i, s) := by
  obtain ⟨id', q, key', root, hq, hpq, -, he⟩ := h.cached.above i _ hi
  obtain ⟨rfl, hkey⟩ := List.append_inj' hpq rfl
  obtain rfl : key = key' := List.singleton_inj.1 hkey
  obtain rfl := pathOf_injective h.cached.nodup hp hq
  obtain ⟨b, hb⟩ := h.bucket hp
  have hentry := he
  unfold Db.entry at hentry
  rw [hb, Option.bind_some] at hentry
  obtain ⟨map, hmap, hlookup⟩ := Option.bind_eq_some_iff.1 hentry
  have hopen : pathOf w i = some (p ++ [key]) := by
    have hlt : i < w.length := (List.getElem?_eq_some_iff.1 hi).1
    unfold pathOf
    rw [if_neg (Nat.ne_of_lt (Nat.lt_trans hlt h.cached.few))]
    exact hi
  obtain ⟨b', hb'⟩ := h.bucket hopen
  have hat : Bucket.atSubBucket id s = (.ok b, s) := by
    simp only [Bucket.atSubBucket, hb]
  have hat' : Bucket.atSubBucket i s = (.ok b', s) := by
    simp only [Bucket.atSubBucket, hb']
  have hself : s.setBucket id { b with subBucketMap := some (b.subBucketMap.getD []) } = s := by
    rw [hmap, Option.getD_some, ← hmap]
    exact setBucket_self hb
  unfold Bucket.subBucket
  rw [Exec.bind_of_ok hat, Exec.change_bind, hself, hmap, Option.getD_some]
  simp only [hlookup]
  show (Bucket.atSubBucket i >>= _) s = _
  rw [Exec.bind_of_ok hat']
  rfl

section New

variable (h : s.Rooted w ρ) (hl : s.Listed w) (hp : pathOf w id = some p) (hq : p ++ [key] ∉ w)

include h hl hp hq

/-- The entry of the key is made. -/
theorem makeEntry : s.SameStore (s.makeEntry id key) ∧ (s.makeEntry id key).Rooted w ρ ∧
    (s.makeEntry id key).entry id key = some (0, kPageInvalidId) ∧
    (∀ id' key', ¬ (id' = id ∧ key' = key) →
      (s.makeEntry id key).entry id' key' = s.entry id' key') ∧
    ∀ id', ((s.makeEntry id key).keys id').Nodup := by
  obtain ⟨b, hb⟩ := h.bucket hp
  have hnone := hl.entry_eq_none hp hq
  rw [Bucket.makeEntry_eq hb]
  have hlookup : SubBucketMap.lookup key (b.subBucketMap.getD []) = none := by
    unfold Db.entry at hnone
    rw [hb, Option.bind_some] at hnone
    cases hm : b.subBucketMap with
    | none => rfl
    | some map =>
      rw [hm] at hnone
      exact hnone
  have hmade : ∀ key', (s.setBucket id (b.withEntry key)).entry id key' =
      SubBucketMap.lookup key'
        (SubBucketMap.insert key (0, kPageInvalidId) (b.subBucketMap.getD [])) := by
    intro key'
    unfold Db.entry
    rw [bucket_setBucket_self hb]
    rfl
  have hsame := SameStore.setBucket s id (b.withEntry key)
  have hothers : ∀ id' key', ¬ (id' = id ∧ key' = key) →
      (s.setBucket id (b.withEntry key)).entry id' key' = s.entry id' key' := by
    intro id' key' hne
    by_cases hid : id' = id
    · subst hid
      rw [hmade, SubBucketMap.lookup_insert_of_ne fun hkey => hne ⟨rfl, hkey⟩]
      unfold Db.entry
      rw [hb, Option.bind_some]
      cases b.subBucketMap <;> rfl
    · exact entry_setBucket_of_ne hid _ key'
  refine ⟨hsame, h.of_entries hp hq hothers hsame ?_ ?_, ?_, hothers, fun id' => ?_⟩
  · exact length_setBucket s id _
  · intro i
    have href : (b.withEntry key).rootRef = b.rootRef := rfl
    exact refOf_setBucket hb href i
  · rw [hmade]
    exact SubBucketMap.lookup_insert hlookup _
  · have hdistinct := hl.distinct id'
    unfold Db.keys at hdistinct ⊢
    by_cases hid : id' = id
    · -- the key was not in the map
      rw [hid, bucket_setBucket_self hb]
      rw [hid, hb] at hdistinct
      refine (SubBucketMap.keys_insert key _ _).nodup_iff.2
        (List.nodup_cons.2 ⟨fun hmem => ?_, hdistinct⟩)
      rw [SubBucketMap.mem_keys, hlookup] at hmem
      cases hmem
    · rw [bucket_setBucket_of_ne hid]
      exact hdistinct

/-- **A bucket that the file has.** -/
theorem subBucket_of_record {value : Bytes} (hfew : w.length + 1 < kUserRootBucketId)
    (hread : BTree.lookup env.toEnv key (s.treeState (ρ p)) =
      (.ok (some (value, true)), s.treeState (ρ p)))
    (hvalue : value.length = 4) (writable : Bool) : ∃ s', Bucket.subBucket env id key writable s =
      (.ok w.length, s') ∧ s.SameStore s' ∧
      s'.Rooted (w ++ [p ++ [key]]) (Function.update ρ (p ++ [key]) (Pager.decodeU32 value)) ∧
      s'.Listed (w ++ [p ++ [key]]) := by
  obtain ⟨b, hb⟩ := h.bucket hp
  obtain ⟨hsame, hmade, hentry, hothers, hdistinct⟩ := h.makeEntry hl hp hq
  rw [← hsame.treeState] at hread
  obtain ⟨iter, hget, hend, hval, hflag⟩ := BTree.get_of_lookup hread
  have hpgid : Bucket.pgidValue env id iter (s.makeEntry id key) =
      (.ok (Pager.decodeU32 value), s.makeEntry id key) := by
    unfold Bucket.pgidValue
    rw [Exec.bind_of_ok (hmade.look hp (Reads.iterValue env.toEnv iter) hval),
      if_neg (not_not.2 hvalue)]
    rfl
  have hopen :=
    Bucket.openSubBucket_of_record writable hb (hmade.look hp (Reads.get env.toEnv key) hget)
    hend (hmade.look hp (Reads.iterIsBucket iter) hflag) hpgid
  -- the root page id of the record goes to the entry, and then the bucket is there
  have hset := entry_modify (s.makeEntry id key) id key fun e => (e.1, Pager.decodeU32 value)
  have hrooted : ((s.makeEntry id key).modifyMap id
      (SubBucketMap.modify key fun e => (e.1, Pager.decodeU32 value))).Rooted w ρ := by
    refine hmade.of_entries hp hq (fun id' key' hne => ?_) (SameStore.modifyMap _ id _)
      (length_modifyMap _ id _) (refOf_modifyMap _ id _)
    rw [hset, if_neg hne]
  have he :
      ((s.makeEntry id key).modifyMap id
        (SubBucketMap.modify key fun e => (e.1, Pager.decodeU32 value))).entry
      id key = some (0, Pager.decodeU32 value) := by
    rw [hset, if_pos ⟨rfl, rfl⟩, hentry]
    rfl
  have hnew := hrooted.addBucket hp hq he hfew writable
  have hlength : ((s.makeEntry id key).modifyMap id
      (SubBucketMap.modify key fun e => (e.1, Pager.decodeU32 value))).tx.subBucketCache.length =
        w.length :=
    hrooted.cached.length
  refine ⟨_, ?_, hsame.trans
    ((SameStore.modifyMap _ id _).trans (sameStore_addBucket _ id key writable)), hnew, ?_⟩
  · refine Bucket.subBucket_eq writable hb (hl.entry_eq_none hp hq) (hopen.trans ?_) ?_
    · rw [Bucket.finishOpen_eq, hlength]
    · obtain ⟨b', hb'⟩ := hnew.bucket (pathOf_last h.cached.few (p ++ [key]))
      exact Option.isSome_iff_exists.2 ⟨b', hb'⟩
  · refine hl.addBucket hp (fun id' key' hne => ?_) ?_ fun id' => ?_
    · rw [entry_addBucket, if_neg hne, hset, if_neg hne, hothers id' key' hne]
    · rw [entry_addBucket, if_pos ⟨rfl, rfl⟩, he, hlength]
      rfl
    · rw [keys_addBucket, keys_modify]
      exact hdistinct id'

end New

end Db.Rooted

namespace Db.Holds

variable {env : DbEnv} {b b' : ℕ} {s s' : Db} {w w' : List BucketPath} {I I' : Finset BucketPath}
  {ρ ρ' : BucketPath → Nat} {m m' : BucketPath → Dictionary} {id : Nat}
  {p : BucketPath} {key : Bytes}

/-- Other buckets are open, the file is the same. -/
theorem congr (h : s.Holds env b w I ρ m) (hsame : s.SameStore s') (hrooted : s'.Rooted w' ρ')
    (hinside : ∀ id p, pathOf w' id = some p → p ∈ I')
    (hgrove : ∀ Γ, Grove Γ b I ρ m (s.treeState 0) → Grove Γ b' I' ρ' m' (s.treeState 0)) :
    s'.Holds env b' w' I' ρ' m' := by
  obtain ⟨Γ, henv, hold⟩ := h.grove
  refine ⟨hrooted, hinside, hsame.writable.trans h.writable, ⟨Γ, henv, ?_⟩,
    (congrArg MetaInfo.freeListPgid hsame.info).trans h.noList⟩
  rw [hsame.treeState]
  exact hgrove Γ hold

section New

variable (hl : s.Listed w) (hp : pathOf w id = some p) (hq : p ++ [key] ∉ w)
  (hfew : w.length + 1 < kUserRootBucketId)

include hl hp hq hfew

/-- A bucket that the file has is opened. -/
theorem subBucket_of_record {value : Bytes} (h : s.Holds env b w I ρ m) (hI : p ++ [key] ∈ I)
    (hvalue : m p key = some (value, true)) (hlength : value.length = 4)
    (hroot : Pager.decodeU32 value = ρ (p ++ [key])) (writable : Bool) : ∃ s',
      Bucket.subBucket env id key writable s = (.ok w.length, s') ∧
      s'.Holds env b (w ++ [p ++ [key]]) I ρ m ∧
        s'.Listed (w ++ [p ++ [key]]) := by
  have hread := h.reads (h.inside id p hp) key
  rw [hvalue] at hread
  obtain ⟨s', hrun, hsame, hrooted, hlisted⟩ :=
    h.rooted.subBucket_of_record hl hp hq hfew hread hlength writable
  rw [hroot, Function.update_eq_self] at hrooted
  refine ⟨s', hrun, h.congr hsame hrooted (fun id' p' hp' => ?_) fun _ hgrove => hgrove, hlisted⟩
  rcases pathOf_concat hp' with hold | ⟨-, rfl⟩
  · exact h.inside id' p' hold
  · exact hI

/-- **A bucket is created**: its record is put without a root page. -/
theorem subBucket_of_absent (h : s.Holds env (b + callRoom) w I ρ m) (hI : p ++ [key] ∉ I)
    (hnone : m p key = none) (hempty : m (p ++ [key]) = fun _ => none)
    (hslim : SlimRecord env.pageSize key (Pager.encodeU32 kPageInvalidId))
    (writable : Bool) : ∃ s' root, Bucket.subBucket env id key writable s = (.ok w.length, s') ∧
      s'.Holds env b (w ++ [p ++ [key]]) (insert (p ++ [key]) I)
        (Function.update (Function.update ρ p root) (p ++ [key]) kPageInvalidId)
        (Function.update m p
          (Function.update (m p) key (some (Pager.encodeU32 kPageInvalidId, true)))) ∧
      s'.Listed (w ++ [p ++ [key]]) := by
  obtain ⟨bucket, hb⟩ := h.rooted.bucket hp
  have hmem := h.inside id p hp
  have hne : p ++ [key] ≠ p := by
    intro heq
    rw [heq] at hI
    exact hI hmem
  obtain ⟨hsame, hmade, hentry, hothers, hdistinct⟩ := h.rooted.makeEntry hl hp hq
  have h₁ : (s.makeEntry id key).Holds env (b + callRoom) w I ρ m :=
    h.congr hsame hmade h.inside fun _ hgrove => hgrove
  -- the key is looked up, put and looked up again
  have hread := h₁.reads hmem key
  rw [hnone] at hread
  obtain ⟨iter, hget, hend⟩ := BTree.get_of_lookup_none hread
  have haccept : (m p).Accepts env.pageSize key (Pager.encodeU32 kPageInvalidId) true := by
    refine ⟨hslim, fun old hold => ?_⟩
    rw [hnone] at hold
    cases hold
  obtain ⟨t, hput, ht, hentries⟩ := h₁.put hp haccept
  obtain ⟨root, hroot⟩ : ∃ root, root =
    (BTree.put env.toEnv key (Pager.encodeU32 kPageInvalidId) true
      ((s.makeEntry id key).treeState (ρ p))).2.rootPgid :=
    ⟨_, rfl⟩
  rw [← hroot] at ht
  have hput' : Function.update m p
      (Function.update (m p) key (some (Pager.encodeU32 kPageInvalidId, true))) p key =
      some (Pager.encodeU32 kPageInvalidId, true) := by
    rw [Function.update_self, Function.update_self]
  have hread' := ht.reads hmem key
  rw [hput'] at hread'
  obtain ⟨iter', hget', -, -, hflag⟩ := BTree.get_of_lookup hread'
  have hopen :=
    Bucket.openSubBucket_of_absent writable hb (hmade.look hp (Reads.get env.toEnv key) hget)
    hend hput (ht.rooted.look hp (Reads.get env.toEnv key) hget')
      (ht.rooted.look hp (Reads.iterIsBucket iter') hflag)
  have he : t.entry id key = some (0, kPageInvalidId) := (hentries.own key).trans hentry
  have hnew := ht.rooted.addBucket hp hq he hfew writable
  refine ⟨_, root, ?_, ht.congr (sameStore_addBucket t id key writable) hnew (fun id' p' hp' => ?_)
    fun Γ hgrove => ?_, ?_⟩
  · refine Bucket.subBucket_eq writable hb (hl.entry_eq_none hp hq) (hopen.trans ?_) ?_
    · rw [Bucket.finishOpen_eq, ht.rooted.cached.length]
    · obtain ⟨b', hb'⟩ := hnew.bucket (pathOf_last h.rooted.cached.few (p ++ [key]))
      exact Option.isSome_iff_exists.2 ⟨b', hb'⟩
  · rcases pathOf_concat hp' with hold | ⟨-, rfl⟩
    · exact Finset.mem_insert_of_mem (h.inside id' p' hold)
    · exact Finset.mem_insert_self _ _
  · refine (hgrove.insert hI).congr fun i _ => ⟨rfl, ?_⟩
    by_cases hi : i = p ++ [key]
    · rw [hi, Function.update_self, Function.update_of_ne hne, hempty]
    · rw [Function.update_of_ne hi]
  · refine hl.addBucket hp (fun id' key' hother => ?_) ?_ fun id' => ?_
    · rw [entry_addBucket, if_neg hother, hentries.ids id' key', hothers id' key' hother]
    · rw [entry_addBucket, if_pos ⟨rfl, rfl⟩, he, ht.rooted.cached.length]
      rfl
    · rw [keys_addBucket, hentries.keys]
      exact hdistinct id'

end New

end Db.Holds

end AtomKV
