import AtomKV.Views

/-!
# The open buckets of a transaction

A bucket is named by the keys that lead to it from the user bucket. `sub_bucket_cache_` and the
`sub_bucket_map_`s say which buckets a transaction has opened, and where the root variable of
each of them is.
-/

set_option autoImplicit false

namespace AtomKV

/-- The keys that lead to a bucket. -/
abbrev BucketPath : Type := List Bytes

/-- The path of the bucket with the id, where `w` are the paths of the buckets in
`sub_bucket_cache_`. -/
def pathOf (w : List BucketPath) (id : Nat) : Option BucketPath :=
  if id = kUserRootBucketId then some [] else w[id]?

namespace SubBucketMap

theorem keys_modify (key : Bytes) (f : Nat × Nat → Nat × Nat) (m : SubBucketMap) :
    (modify key f m).map Prod.fst = m.map Prod.fst := by
  induction m with
  | nil => rfl
  | cons x m ih =>
    unfold modify
    split_ifs
    · rfl
    · rw [List.map_cons, List.map_cons, ih]

theorem keys_insert (key : Bytes) (v : Nat × Nat) (m : SubBucketMap) :
    ((insert key v m).map Prod.fst).Perm (key :: m.map Prod.fst) := by
  unfold insert
  rw [List.map_append, List.map_cons]
  refine List.perm_middle.trans (List.Perm.cons key ?_)
  rw [← List.map_append, List.takeWhile_append_dropWhile]

theorem mem_keys {key : Bytes} {m : SubBucketMap} :
    key ∈ m.map Prod.fst ↔ (lookup key m).isSome := by
  unfold lookup
  rw [Option.isSome_map, List.find?_isSome, List.mem_map]
  simp only [decide_eq_true_eq]

end SubBucketMap

namespace Db

variable {s s' : Db} {id id' root : Nat} {key key' : Bytes} {b : BucketImpl}

/-- Where the root variable of the bucket is. -/
def refOf (s : Db) (id : Nat) : Option RootRef := (s.bucket id).map BucketImpl.rootRef

/-- The root page of the bucket. -/
def rootOf (s : Db) (id : Nat) : Option Nat := (s.refOf id).bind s.rootAt

/-- The keys of the `sub_bucket_map_` of the bucket. -/
def keys (s : Db) (id : Nat) : List Bytes :=
  (((s.bucket id).bind BucketImpl.subBucketMap).getD []).map Prod.fst

/-- The bucket that has been opened under the path. -/
def idAt (s : Db) (p : BucketPath) : Option Nat :=
  p.foldlM (fun id key => (s.entry id key).map Prod.fst) kUserRootBucketId

/-! ## Entries and root variables -/

theorem refOf_setBucket {b' : BucketImpl} (hb : s.bucket id = some b)
    (href : b'.rootRef = b.rootRef) (id' : Nat) : (s.setBucket id b').refOf id' = s.refOf id' := by
  unfold refOf
  by_cases hid : id' = id
  · subst hid
    rw [bucket_setBucket_self hb, hb, Option.map_some, Option.map_some, href]
  · rw [bucket_setBucket_of_ne hid]

theorem refOf_modifyMap (s : Db) (id : Nat) (f : SubBucketMap → SubBucketMap) (id' : Nat) :
    (s.modifyMap id f).refOf id' = s.refOf id' := by
  cases hb : s.bucket id with
  | none =>
    unfold modifyMap
    rw [hb]
  | some b =>
    rw [modifyMap_of_bucket hb]
    have href : BucketImpl.rootRef { b with subBucketMap := b.subBucketMap.map f } = b.rootRef :=
      rfl
    exact refOf_setBucket hb href id'

theorem length_setBucket (s : Db) (id : Nat) (b : BucketImpl) :
    (s.setBucket id b).tx.subBucketCache.length = s.tx.subBucketCache.length := by
  unfold setBucket
  split_ifs
  · rfl
  · exact List.length_set

theorem length_modifyMap (s : Db) (id : Nat) (f : SubBucketMap → SubBucketMap) :
    (s.modifyMap id f).tx.subBucketCache.length = s.tx.subBucketCache.length := by
  unfold modifyMap
  cases s.bucket id with
  | none => rfl
  | some b => exact length_setBucket s id _

/-- The entries after the map of a bucket has changed. -/
theorem entry_modifyMap (s : Db) (id : Nat) (f : SubBucketMap → SubBucketMap) (id' : Nat)
    (key : Bytes) : (s.modifyMap id f).entry id' key = if id' = id then
      (((s.bucket id).bind BucketImpl.subBucketMap).map f).bind (SubBucketMap.lookup key)
        else s.entry id' key := by
  cases hb : s.bucket id with
  | none =>
    unfold modifyMap
    rw [hb]
    by_cases hid : id' = id
    · rw [if_pos hid, hid]
      unfold entry
      rw [hb]
      rfl
    · rw [if_neg hid]
  | some b =>
    rw [modifyMap_of_bucket hb]
    by_cases hid : id' = id
    · rw [if_pos hid, hid]
      unfold entry
      rw [bucket_setBucket_self hb]
      rfl
    · rw [if_neg hid, entry_setBucket_of_ne hid]

/-- A root page id is assigned, or a bucket id. -/
theorem entry_modify (s : Db) (id : Nat) (key : Bytes) (f : Nat × Nat → Nat × Nat) (id' : Nat)
    (key' : Bytes) : (s.modifyMap id (SubBucketMap.modify key f)).entry id' key' =
      if id' = id ∧ key' = key then (s.entry id' key').map f else s.entry id' key' := by
  rw [entry_modifyMap]
  by_cases hid : id' = id
  · subst hid
    rw [if_pos rfl]
    unfold entry
    cases hm : (s.bucket id').bind BucketImpl.subBucketMap with
    | none =>
      rw [Option.map_none, Option.bind_none, Option.map_none]
      split_ifs <;> rfl
    | some m =>
      rw [Option.map_some, Option.bind_some, Option.bind_some, SubBucketMap.lookup_modify]
      simp only [true_and]
  · rw [if_neg hid, if_neg fun h => hid h.1]

theorem mem_keys : key ∈ s.keys id ↔ (s.entry id key).isSome := by
  unfold keys entry
  cases (s.bucket id).bind BucketImpl.subBucketMap with
  | none => exact ⟨fun h => absurd h List.not_mem_nil, fun h => by cases h⟩
  | some m => exact SubBucketMap.mem_keys

/-- A value of the map is changed. -/
theorem keys_modify (s : Db) (id : Nat) (key : Bytes) (f : Nat × Nat → Nat × Nat) (id' : Nat) :
    (s.modifyMap id (SubBucketMap.modify key f)).keys id' = s.keys id' := by
  cases hb : s.bucket id with
  | none =>
    unfold modifyMap
    rw [hb]
  | some b =>
    rw [modifyMap_of_bucket hb]
    unfold keys
    by_cases hid : id' = id
    · rw [hid, bucket_setBucket_self hb, hb]
      show ((b.subBucketMap.map (SubBucketMap.modify key f)).getD []).map Prod.fst =
        (b.subBucketMap.getD []).map Prod.fst
      cases b.subBucketMap with
      | none => rfl
      | some m => exact SubBucketMap.keys_modify key f m
    · rw [bucket_setBucket_of_ne hid]

theorem refOf_setRootAt (s : Db) (root : Nat) (r : RootRef) (id : Nat) :
    (s.setRootAt root r).refOf id = s.refOf id := by
  cases r with
  | userRoot => rfl
  | entry parent key => exact refOf_modifyMap s parent _ id

theorem entry_setRootAt (s : Db) (root : Nat) (r : RootRef) (id : Nat) (key : Bytes) :
    (s.setRootAt root r).entry id key =
      if r = .entry id key then (s.entry id key).map fun e => (e.1, root) else s.entry id key := by
  cases r with
  | userRoot => rfl
  | entry parent k =>
    show (s.modifyMap parent _).entry id key = _
    rw [entry_modify]
    by_cases hr : id = parent ∧ key = k
    · rw [if_pos hr, hr.1, hr.2, if_pos rfl]
    · rw [if_neg hr, if_neg]
      rintro heq
      cases heq
      exact hr ⟨rfl, rfl⟩

/-- One root variable is assigned, the other ones are not. -/
theorem rootAt_setRootAt {r r' : RootRef} (hr : (s.rootAt r).isSome) (root : Nat) :
    (s.setRootAt root r).rootAt r' = if r' = r then some root else s.rootAt r' := by
  cases r' with
  | userRoot =>
    cases r with
    | userRoot => rfl
    | entry parent key =>
      rw [if_neg (by simp)]
      exact congrArg (fun m => some (MetaInfo.userRoot m)) (SameStore.modifyMap s parent _).info
  | entry parent key =>
    show ((s.setRootAt root r).entry parent key).map Prod.snd = _
    rw [entry_setRootAt]
    by_cases heq : r = .entry parent key
    · rw [if_pos heq, if_pos heq.symm]
      subst heq
      obtain ⟨e, he, -⟩ := Option.map_eq_some_iff.1 (Option.some_get hr).symm
      rw [he]
      rfl
    · rw [if_neg heq, if_neg fun h => heq h.symm]
      rfl

/-! ## The buckets that are open -/

/-- The buckets of `w` are open, and no other: each has an entry in the bucket above it. -/
structure Cached (s : Db) (w : List BucketPath) : Prop where
  nodup : ([] :: w).Nodup
  few : w.length < kUserRootBucketId
  length : s.tx.subBucketCache.length = w.length
  user : s.refOf kUserRootBucketId = some .userRoot
  above : ∀ i p, w[i]? = some p → ∃ id q key root, pathOf w id = some q ∧ p = q ++ [key] ∧
    s.refOf i = some (.entry id key) ∧ s.entry id key = some (i, root)

/-- The entries are of the same buckets; their root page ids may differ. -/
structure SameIds (s s' : Db) : Prop where
  ids : ∀ id key, (s'.entry id key).map Prod.fst = (s.entry id key).map Prod.fst
  keys : ∀ id, s'.keys id = s.keys id

/-- So they are, and the entries of the bucket are the same altogether. -/
structure SameEntries (s : Db) (id : Nat) (s' : Db) : Prop extends s.SameIds s' where
  own : ∀ key, s'.entry id key = s.entry id key

/-- Every entry is of one of the open buckets, and there is one for a key. -/
structure Listed (s : Db) (w : List BucketPath) : Prop where
  opened : ∀ id key e, s.entry id key = some e →
    ∃ q, pathOf w id = some q ∧ w[e.1]? = some (q ++ [key])
  distinct : ∀ id, (s.keys id).Nodup

theorem entry_of_bucket (h : s'.bucket id = s.bucket id) (key : Bytes) :
    s'.entry id key = s.entry id key := by
  unfold entry
  rw [h]

theorem SameIds.of_bucket (h : ∀ id, s'.bucket id = s.bucket id) : s.SameIds s' where
  ids := fun id key => congrArg _ (entry_of_bucket (h id) key)
  keys := by
    intro id
    unfold Db.keys
    rw [h]

theorem SameIds.trans {s'' : Db} (h : s.SameIds s') (h' : s'.SameIds s'') : s.SameIds s'' :=
  ⟨fun id key => (h'.ids id key).trans (h.ids id key), fun id => (h'.keys id).trans (h.keys id)⟩

theorem SameIds.setRootAt (s : Db) (root : Nat) (r : RootRef) : s.SameIds (s.setRootAt root r) where
  ids := by
    intro id key
    rw [entry_setRootAt]
    split_ifs
    · cases s.entry id key <;> rfl
    · rfl
  keys := by
    intro id
    cases r with
    | userRoot => rfl
    | entry parent key => exact keys_modify s parent key _ id

theorem SameEntries.of_bucket {s₁ : Db} (h : s₁.SameEntries id s')
    (heq : ∀ id, s₁.bucket id = s.bucket id) : s.SameEntries id s' :=
  ⟨(SameIds.of_bucket heq).trans h.toSameIds, fun k => (h.own k).trans (entry_of_bucket (heq id) k)⟩

/-- An entry that is of no open bucket is not there. -/
theorem Listed.entry_eq_none {w : List BucketPath} {p : BucketPath} (h : s.Listed w)
    (hp : pathOf w id = some p) (hq : p ++ [key] ∉ w) : s.entry id key = none := by
  by_contra hsome
  obtain ⟨e, he⟩ := Option.ne_none_iff_exists'.1 hsome
  obtain ⟨q, hpath, hw⟩ := h.opened id key e he
  obtain rfl := Option.some.inj (hpath.symm.trans hp)
  exact hq (List.mem_of_getElem? hw)

end Db

theorem pathOf_append {w : List BucketPath} {id : Nat} {p : BucketPath} (h : pathOf w id = some p)
    (q : BucketPath) : pathOf (w ++ [q]) id = some p := by
  unfold pathOf at h ⊢
  split_ifs at h ⊢
  · exact h
  · rw [List.getElem?_append_left (List.getElem?_eq_some_iff.1 h).1]
    exact h

/-- The bucket that has been opened last. -/
theorem pathOf_last {w : List BucketPath} (hfew : w.length < kUserRootBucketId) (q : BucketPath) :
    pathOf (w ++ [q]) w.length = some q := by
  unfold pathOf
  rw [if_neg (Nat.ne_of_lt hfew), List.getElem?_concat_length]

/-- It, or one that was open. -/
theorem pathOf_concat {w : List BucketPath} {id : Nat} {p q : BucketPath}
    (h : pathOf (w ++ [q]) id = some p) : pathOf w id = some p ∨ id = w.length ∧ p = q := by
  unfold pathOf at h ⊢
  by_cases hid : id = kUserRootBucketId
  · rw [if_pos hid] at h ⊢
    exact .inl h
  · rw [if_neg hid] at h ⊢
    rcases Nat.lt_trichotomy id w.length with hlt | rfl | hgt
    · rw [List.getElem?_append_left hlt] at h
      exact .inl h
    · rw [List.getElem?_concat_length] at h
      exact .inr ⟨rfl, (Option.some.inj h).symm⟩
    · rw [List.getElem?_eq_none (by rw [List.length_append, List.length_singleton]; exact hgt)] at h
      cases h

/-- The path of an open bucket. -/
theorem mem_of_pathOf {w : List BucketPath} {id : Nat} {p : BucketPath} (h : pathOf w id = some p) :
    p ∈ [] :: w := by
  unfold pathOf at h
  split_ifs at h
  · exact Option.some.inj h ▸ List.mem_cons_self
  · exact List.mem_cons_of_mem _ (List.mem_of_getElem? h)

/-- No two buckets have the same path. -/
theorem pathOf_injective {w : List BucketPath} (hnodup : ([] :: w).Nodup) {id id' : Nat}
    {p : BucketPath} (h : pathOf w id = some p) (h' : pathOf w id' = some p) : id = id' := by
  obtain ⟨huser, hw⟩ := List.nodup_cons.1 hnodup
  unfold pathOf at h h'
  by_cases hid : id = kUserRootBucketId
  · by_cases hid' : id' = kUserRootBucketId
    · exact hid.trans hid'.symm
    · rw [if_pos hid] at h
      rw [if_neg hid', ← Option.some.inj h] at h'
      exact absurd (List.mem_of_getElem? h') huser
  · by_cases hid' : id' = kUserRootBucketId
    · rw [if_pos hid'] at h'
      rw [if_neg hid, ← Option.some.inj h'] at h
      exact absurd (List.mem_of_getElem? h) huser
    · rw [if_neg hid] at h
      rw [if_neg hid'] at h'
      exact (List.getElem?_inj (List.getElem?_eq_some_iff.1 h).1 hw).1 (h.trans h'.symm)

theorem Db.Listed.congr {s s' : Db} {w : List BucketPath} (h : s.Listed w) (hentry : s.SameIds s') :
    s'.Listed w := by
  refine ⟨fun id key e he => ?_, fun id => (hentry.keys id).symm ▸ h.distinct id⟩
  have hid := hentry.ids id key
  rw [he] at hid
  obtain ⟨e', he', heq⟩ := Option.map_eq_some_iff.1 hid.symm
  obtain ⟨q, hq, hw⟩ := h.opened id key e' he'
  rw [heq] at hw
  exact ⟨q, hq, hw⟩

namespace Db.Cached

variable {s s' : Db} {w : List BucketPath} {id id' : Nat} {p p' : BucketPath} {key : Bytes}

/-- The paths are those under which the buckets were opened. -/
theorem idAt (h : s.Cached w) (hp : p ∈ [] :: w) :
    ∃ id, s.idAt p = some id ∧ pathOf w id = some p := by
  induction p using List.reverseRecOn with
  | nil => exact ⟨kUserRootBucketId, rfl, if_pos rfl⟩
  | append_singleton q key ih =>
    have hw : q ++ [key] ∈ w := (List.mem_cons.1 hp).resolve_left fun he => by simp at he
    obtain ⟨i, hi⟩ := List.getElem?_of_mem hw
    obtain ⟨id, q', key', root, hq', heq, -, he⟩ := h.above i _ hi
    obtain ⟨rfl, hkey⟩ := List.append_inj' heq rfl
    obtain rfl : key = key' := List.singleton_inj.1 hkey
    obtain ⟨id', hid', hpath⟩ := ih (mem_of_pathOf hq')
    obtain rfl := pathOf_injective h.nodup hpath hq'
    refine ⟨i, ?_, ?_⟩
    · unfold Db.idAt at hid' ⊢
      rw [List.foldlM_append, hid']
      show (s.entry id' key).map Prod.fst >>= _ = _
      rw [he]
      rfl
    · unfold pathOf
      have hlt : i < w.length := (List.getElem?_eq_some_iff.1 hi).1
      have hne : i ≠ kUserRootBucketId := Nat.ne_of_lt (Nat.lt_trans hlt h.few)
      rw [if_neg hne]
      exact hi

/-- Nothing but the places of the root variables and the ids in the maps matters. -/
theorem congr (h : s.Cached w) (hlength : s'.tx.subBucketCache.length = s.tx.subBucketCache.length)
    (href : ∀ id, s'.refOf id = s.refOf id) (hentry : s.SameIds s') : s'.Cached w where
  nodup := h.nodup
  few := h.few
  length := hlength.trans h.length
  user := (href _).trans h.user
  above := by
    intro i p hi
    obtain ⟨id, q, key, root, hq, hp, hr, he⟩ := h.above i p hi
    have hid := hentry.ids id key
    rw [he] at hid
    obtain ⟨⟨j, root'⟩, he', hj⟩ := Option.map_eq_some_iff.1 hid
    obtain rfl : j = i := hj
    exact ⟨id, q, key, root', hq, hp, (href _).trans hr, he'⟩

/-- A root page id is assigned. -/
theorem setRootAt (h : s.Cached w) (root : Nat) (r : RootRef) : (s.setRootAt root r).Cached w := by
  refine h.congr ?_ (Db.refOf_setRootAt s root r) (Db.SameIds.setRootAt s root r)
  cases r with
  | userRoot => rfl
  | entry parent key => exact Db.length_modifyMap s parent _

/-- An open bucket has a root variable. -/
theorem ref (h : s.Cached w) (hp : pathOf w id = some p) :
    ∃ r, s.refOf id = some r ∧ (s.rootAt r).isSome := by
  unfold pathOf at hp
  by_cases hid : id = kUserRootBucketId
  · exact ⟨_, hid ▸ h.user, rfl⟩
  · rw [if_neg hid] at hp
    obtain ⟨q, -, key, root, -, -, hr, he⟩ := h.above id p hp
    refine ⟨_, hr, ?_⟩
    show ((s.entry q key).map Prod.snd).isSome
    rw [he]
    rfl

/-- A bucket does not hold its own root variable. -/
theorem ref_ne_own (h : s.Cached w) (hp : pathOf w id = some p) (key : Bytes) :
    s.refOf id ≠ some (.entry id key) := by
  intro hr
  have hpath := hp
  unfold pathOf at hp
  by_cases hid : id = kUserRootBucketId
  · rw [hid, h.user] at hr
    cases hr
  · rw [if_neg hid] at hp
    obtain ⟨id', q, key', root, hq, hpq, hr', -⟩ := h.above id p hp
    obtain ⟨rfl, rfl⟩ := RootRef.entry.inj (Option.some.inj (hr.symm.trans hr'))
    -- its path would be longer than itself
    obtain rfl := Option.some.inj (hq.symm.trans hpath)
    have hlength := congrArg List.length hpq
    rw [List.length_append, List.length_singleton] at hlength
    omega

/-- No two buckets have the same root variable. -/
theorem ref_injective (h : s.Cached w) {r : RootRef} (hp : pathOf w id = some p)
    (hp' : pathOf w id' = some p') (hr : s.refOf id = some r) (hr' : s.refOf id' = some r) :
      id = id' := by
  have hentry : ∀ i q, i ≠ kUserRootBucketId → pathOf w i = some q → s.refOf i = some r →
      ∃ parent key root, r = .entry parent key ∧ s.entry parent key = some (i, root) := by
    intro i q hi hq hr
    unfold pathOf at hq
    rw [if_neg hi] at hq
    obtain ⟨parent, -, key, root, -, -, href, he⟩ := h.above i q hq
    exact ⟨parent, key, root, Option.some.inj (hr.symm.trans href), he⟩
  by_cases hid : id = kUserRootBucketId
  · by_cases hid' : id' = kUserRootBucketId
    · exact hid.trans hid'.symm
    · obtain ⟨parent, key, root, rfl, -⟩ := hentry id' p' hid' hp' hr'
      rw [hid, h.user] at hr
      cases hr
  · by_cases hid' : id' = kUserRootBucketId
    · obtain ⟨parent, key, root, rfl, -⟩ := hentry id p hid hp hr
      rw [hid', h.user] at hr'
      cases hr'
    · obtain ⟨parent, key, root, rfl, he⟩ := hentry id p hid hp hr
      obtain ⟨parent', key', root', heq, he'⟩ := hentry id' p' hid' hp' hr'
      cases heq
      exact congrArg Prod.fst (Option.some.inj (he.symm.trans he'))

end Db.Cached

/-! ## Root pages -/

/-- The root variables of the open buckets have the values `ρ`. -/
structure Db.Rooted (s : Db) (w : List BucketPath) (ρ : BucketPath → Nat) : Prop where
  cached : s.Cached w
  roots : ∀ id p, pathOf w id = some p → s.rootOf id = some (ρ p)

namespace Db.Rooted

variable {s s' : Db} {w : List BucketPath} {ρ : BucketPath → Nat} {id : Nat}
  {p : BucketPath} {r : RootRef}

/-- Nothing but the buckets and the root of the user bucket matters. -/
theorem congr (h : s.Rooted w ρ) (huser : s'.tx.userBucket = s.tx.userBucket)
    (hcache : s'.tx.subBucketCache = s.tx.subBucketCache)
    (hroot : s'.tx.metaStruct.userRoot = s.tx.metaStruct.userRoot) : s'.Rooted w ρ := by
  have hbucket : ∀ id, s'.bucket id = s.bucket id := by
    intro id
    unfold Db.bucket
    rw [huser, hcache]
  have href : ∀ id, s'.refOf id = s.refOf id := by
    intro id
    unfold Db.refOf
    rw [hbucket]
  refine ⟨h.cached.congr (congrArg List.length hcache) href (.of_bucket hbucket), fun id p hp => ?_⟩
  rw [← h.roots id p hp]
  unfold Db.rootOf
  rw [href]
  congr 1
  funext r
  cases r with
  | userRoot => exact congrArg some hroot
  | entry parent key =>
    exact congrArg (Option.map Prod.snd) (Db.entry_of_bucket (hbucket parent) key)

/-- The root variable of one bucket is assigned. -/
theorem setRootAt (h : s.Rooted w ρ) (hp : pathOf w id = some p) (hr : s.refOf id = some r)
    (root : Nat) : (s.setRootAt root r).Rooted w (Function.update ρ p root) := by
  refine ⟨h.cached.setRootAt root r, fun id' p' hp' => ?_⟩
  obtain ⟨r₁, hr₁, hsome⟩ := h.cached.ref hp
  obtain rfl : r₁ = r := Option.some.inj (hr₁.symm.trans hr)
  obtain ⟨r', hr', hat⟩ := Option.bind_eq_some_iff.1 (h.roots id' p' hp')
  unfold Db.rootOf
  rw [Db.refOf_setRootAt, hr', Option.bind_some, Db.rootAt_setRootAt hsome]
  by_cases hpp : p' = p
  · subst hpp
    obtain rfl : id' = id := pathOf_injective h.cached.nodup hp' hp
    obtain rfl : r' = r₁ := Option.some.inj (hr'.symm.trans hr)
    rw [if_pos rfl, Function.update_self]
  · have hne : r' ≠ r₁ := by
      rintro rfl
      obtain rfl : id' = id := h.cached.ref_injective hp' hp hr' hr
      exact hpp (Option.some.inj (hp'.symm.trans hp))
    rw [if_neg hne, Function.update_of_ne hpp]
    exact hat

/-- The tree code works on the root of the bucket. -/
theorem onTree_eq {α : Type} (h : s.Rooted w ρ) (hp : pathOf w id = some p) (x : TxM α) : ∃ r,
    s.refOf id = some r ∧ Bucket.onTree id x s = ((x (s.treeState (ρ p))).1,
      (s.withTree (x (s.treeState (ρ p))).2).setRootAt (x (s.treeState (ρ p))).2.rootPgid r) := by
  obtain ⟨r, hr, hat⟩ := Option.bind_eq_some_iff.1 (h.roots id p hp)
  obtain ⟨bucket, hb, rfl⟩ := Option.map_eq_some_iff.1 hr
  exact ⟨_, hr, Bucket.onTree_of_root hb hat x⟩

/-- What is read in the tree of the bucket. -/
theorem look {α : Type} {x : TxM α} {a : α} {t : TxState} (h : s.Rooted w ρ)
    (hp : pathOf w id = some p) (hx : Exec.ReadOnly x) (hrun : x (s.treeState (ρ p)) = (.ok a, t)) :
      Bucket.onTree id x s = (.ok a, s) := by
  obtain ⟨r, -, heq⟩ := h.onTree_eq hp x
  refine Prod.ext ?_ (Bucket.onTree_readOnly hx id s)
  rw [heq]
  show (x (s.treeState (ρ p))).1 = _
  rw [hrun]

section Entries

variable {key : Bytes} (h : s.Rooted w ρ) (hp : pathOf w id = some p) (hq : p ++ [key] ∉ w)
  (hentry : ∀ id' key', ¬ (id' = id ∧ key' = key) → s'.entry id' key' = s.entry id' key')

include h hp hq hentry

/-- An entry that is of no open bucket does not matter. -/
theorem above_of_entries {i : Nat} {p' : BucketPath} (hi : w[i]? = some p') : ∃ id' q' key' root,
    pathOf w id' = some q' ∧ p' = q' ++ [key'] ∧ s.refOf i = some (.entry id' key') ∧
      s.entry id' key' = some (i, root) ∧ s'.entry id' key' = some (i, root) := by
  obtain ⟨id', q', key', root, hq', hp', hr, he⟩ := h.cached.above i p' hi
  refine ⟨id', q', key', root, hq', hp', hr, he, (hentry id' key' ?_).trans he⟩
  rintro ⟨rfl, rfl⟩
  obtain rfl := Option.some.inj (hq'.symm.trans hp)
  exact hq (hp' ▸ List.mem_of_getElem? hi)

theorem rootOf_of_entries (hsame : s.SameStore s') {id' : Nat} {p' : BucketPath}
    (hp' : pathOf w id' = some p') (href : s'.refOf id' = s.refOf id') :
      s'.rootOf id' = some (ρ p') := by
  rw [← h.roots id' p' hp']
  unfold Db.rootOf
  rw [href]
  unfold pathOf at hp'
  by_cases hid : id' = kUserRootBucketId
  · rw [hid, h.cached.user]
    exact congrArg (fun i => some (MetaInfo.userRoot i)) hsame.info
  · rw [if_neg hid] at hp'
    obtain ⟨id₁, q₁, key₁, root, -, -, hr, he, he'⟩ := h.above_of_entries hp hq hentry hp'
    rw [hr]
    show (s'.entry id₁ key₁).map Prod.snd = (s.entry id₁ key₁).map Prod.snd
    rw [he, he']

theorem of_entries (hsame : s.SameStore s')
    (hlength : s'.tx.subBucketCache.length = s.tx.subBucketCache.length)
    (href : ∀ i, s'.refOf i = s.refOf i) : s'.Rooted w ρ := by
  refine ⟨⟨h.cached.nodup, h.cached.few, hlength.trans h.cached.length,
    (href _).trans h.cached.user, ?_⟩, ?_⟩
  · intro i p' hi
    obtain ⟨id', q', key', root, hq', hp', hr, -, he⟩ := h.above_of_entries hp hq hentry hi
    exact ⟨id', q', key', root, hq', hp', (href i).trans hr, he⟩
  · intro id' p' hp'
    exact h.rootOf_of_entries hp hq hentry hsame hp' (href id')

end Entries

end Db.Rooted

end AtomKV
