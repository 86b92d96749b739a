import AtomKV.SubBuckets

/-!
# Nested buckets as a store

What the buckets of a transaction are for: each of them gives a key a value, or a bucket below it.
The records of the sub-buckets hold root page ids, which a client does not see; `Linked` says which
of them are right while the transaction runs, namely those of the buckets that it has not opened.
-/

set_option autoImplicit false

namespace AtomKV

/-- What a bucket has under a key. -/
inductive Holding where
  | plain (value : Bytes)
  | bucket
  deriving DecidableEq

namespace Holding

/-- What a record says to a client. -/
def of (r : Bytes × Bool) : Holding := if r.2 then .bucket else .plain r.1

/-- Whether a value may be put over it. -/
def Takes (value : Bytes) : Holding → Prop
  | .plain old => value.length ≤ old.length
  | .bucket => False

instance (value : Bytes) : (item : Holding) → Decidable (item.Takes value)
  | .plain old => inferInstanceAs (Decidable (value.length ≤ old.length))
  | .bucket => inferInstanceAs (Decidable False)

theorem of_eq_bucket {r : Bytes × Bool} : of r = .bucket ↔ r.2 = true := by
  unfold of
  split_ifs with h
  · exact ⟨fun _ => h, fun _ => rfl⟩
  · exact ⟨nofun, fun he => absurd he h⟩

theorem Takes.plain {value : Bytes} {r : Bytes × Bool} (h : (of r).Takes value) :
    r.2 = false ∧ value.length ≤ r.1.length := by
  unfold of at h
  split_ifs at h with hr
  · cases h
  · exact ⟨Bool.eq_false_iff.2 hr, h⟩

end Holding

/-! ## The store -/

/-- The buckets that the client has opened, in this order, and what every bucket has under its keys.
-/
structure BucketStore where
  opened : List BucketPath
  items : BucketPath → Bytes → Option Holding

/-- `SubUpdateBucket`, `Get`, `Put` and `Delete` of an open bucket. -/
inductive BucketCall where
  | sub (p : BucketPath) (key : Bytes)
  | get (p : BucketPath) (key : Bytes)
  | put (p : BucketPath) (key value : Bytes)
  | delete (p : BucketPath) (key : Bytes)

inductive BucketReply where
  | done
  | found (item : Option Holding)
  | deleted (found : Bool)
  deriving DecidableEq

namespace BucketStore

/-- The item under a key is replaced. -/
def set (σ : BucketStore) (p : BucketPath) (key : Bytes) (item : Option Holding) : BucketStore :=
  { σ with items := Function.update σ.items p (Function.update (σ.items p) key item) }

/-- The bucket is among the open ones. -/
def openAt (σ : BucketStore) (p : BucketPath) : BucketStore :=
  if p ∈ σ.opened then σ else { σ with opened := σ.opened ++ [p] }

/-- What the calls are for. A bucket is opened by the bucket above it, and is created if there is
nothing under the key; plain calls are for plain keys. -/
def spec (P : ℕ) : Spec BucketCall BucketReply BucketStore where
  permits
    | σ, .sub p key => p ∈ [] :: σ.opened ∧ (∀ item ∈ σ.items p key, item = .bucket) ∧
        (σ.items p key = none → SlimRecord P key (Pager.encodeU32 kPageInvalidId)) ∧
        σ.opened.length + 1 < kUserRootBucketId
    | σ, .get p _ => p ∈ [] :: σ.opened
    | σ, .put p key value => p ∈ [] :: σ.opened ∧ SlimRecord P key value ∧
        ∀ item ∈ σ.items p key, item.Takes value
    | σ, .delete p key => p ∈ [] :: σ.opened ∧ σ.items p key ≠ some .bucket
  reply
    | _, .sub _ _ => .done
    | σ, .get p key => .found (σ.items p key)
    | _, .put _ _ _ => .done
    | σ, .delete p key => .deleted (σ.items p key).isSome
  next
    | σ, .sub p key => (σ.openAt (p ++ [key])).set p key (some .bucket)
    | σ, .get _ _ => σ
    | σ, .put p key value => σ.set p key (some (.plain value))
    | σ, .delete p key => σ.set p key none

instance (P : ℕ) (σ : BucketStore) (c : BucketCall) : Decidable ((spec P).permits σ c) :=
  match c with
  | .sub p key => inferInstanceAs
      (Decidable (p ∈ [] :: σ.opened ∧ (∀ item ∈ σ.items p key, item = .bucket) ∧
      (σ.items p key = none → SlimRecord P key (Pager.encodeU32 kPageInvalidId)) ∧
      σ.opened.length + 1 < kUserRootBucketId))
  | .get p _ => inferInstanceAs (Decidable (p ∈ [] :: σ.opened))
  | .put p key value => inferInstanceAs (Decidable (p ∈ [] :: σ.opened ∧ SlimRecord P key value ∧
      ∀ item ∈ σ.items p key, item.Takes value))
  | .delete p key => inferInstanceAs (Decidable (p ∈ [] :: σ.opened ∧ σ.items p key ≠ some .bucket))

end BucketStore

/-- The call of the bucket. -/
def BucketCall.exec (env : DbEnv) : BucketCall → DbM BucketReply
  | .sub p key => do
      let id ← Bucket.named p
      let _ ← Bucket.subBucket env id key true
      return .done
  | .get p key => do
      let id ← Bucket.named p
      return .found ((← Bucket.onTree id (BTree.lookup env.toEnv key)).map Holding.of)
  | .put p key value => do
      let id ← Bucket.named p
      Bucket.put env id key value false
      return .done
  | .delete p key => do
      let id ← Bucket.named p
      return .deleted (← Bucket.delete env id key)

/-! ## The records of the sub-buckets -/

/-- A bucket is there where the bucket above it has a record for it, and no other bucket has
records. While a bucket is open its root page id is in the entry, and the record may have an older
one. -/
structure Linked (w : List BucketPath) (I : Finset BucketPath) (ρ : BucketPath → Nat)
    (m : BucketPath → Dictionary) : Prop where
  user : [] ∈ I
  child : ∀ p key value, m p key = some (value, true) → p ++ [key] ∈ I ∧ value.length = 4 ∧
    (p ++ [key] ∉ w → Pager.decodeU32 value = ρ (p ++ [key]))
  record : ∀ p key, p ++ [key] ∈ I → ∃ value, m p key = some (value, true)
  outside : ∀ p, p ∉ I → m p = fun _ => none

namespace Linked

variable {w : List BucketPath} {I : Finset BucketPath} {ρ : BucketPath → Nat}
  {m : BucketPath → Dictionary} {p q : BucketPath} {key : Bytes}

/-- A path is no longer than itself. -/
theorem ne_below (p : BucketPath) (key : Bytes) : p ++ [key] ≠ p := by
  intro h
  have hlength := congrArg List.length h
  rw [List.length_append, List.length_singleton] at hlength
  omega

/-- The root of an open bucket is not in its record. -/
theorem root_of_closed (hp : p ∈ [] :: w) {p' : BucketPath} {key' : Bytes} (h : p' ++ [key'] ∉ w)
    (root : Nat) : Function.update ρ p root (p' ++ [key']) = ρ (p' ++ [key']) := by
  apply Function.update_of_ne
  rintro rfl
  rcases List.mem_cons.1 hp with hnil | hmem
  · simp at hnil
  · exact h hmem

/-- One more bucket of the file is open. -/
theorem opened (h : Linked w I ρ m) (q : BucketPath) : Linked (w ++ [q]) I ρ m where
  user := h.user
  child := by
    intro p key value hvalue
    obtain ⟨hmem, hlength, hroot⟩ := h.child p key value hvalue
    exact ⟨hmem, hlength, fun hw => hroot fun hold => hw (List.mem_append_left _ hold)⟩
  record := h.record
  outside := h.outside

/-- A plain record of an open bucket is put or deleted. -/
theorem setPlain (h : Linked w I ρ m) (hp : p ∈ [] :: w) (hmem : p ∈ I) {x : Option (Bytes × Bool)}
    (hold : ∀ value, m p key ≠ some (value, true)) (hnew : ∀ value, x ≠ some (value, true))
    (root : Nat) :
    Linked w I (Function.update ρ p root) (Function.update m p (Function.update (m p) key x)) where
  user := h.user
  child := by
    intro p' key' value hvalue
    have hsame : m p' key' = some (value, true) := by
      by_cases hpp : p' = p
      · subst hpp
        rw [Function.update_self] at hvalue
        by_cases hkey : key' = key
        · rw [hkey, Function.update_self] at hvalue
          exact absurd hvalue (hnew value)
        · rwa [Function.update_of_ne hkey] at hvalue
      · rwa [Function.update_of_ne hpp] at hvalue
    obtain ⟨hI, hlength, hroot⟩ := h.child p' key' value hsame
    exact ⟨hI, hlength, fun hw => (hroot hw).trans (root_of_closed hp hw root).symm⟩
  record := by
    intro p' key' hI
    obtain ⟨value, hvalue⟩ := h.record p' key' hI
    refine ⟨value, ?_⟩
    by_cases hpp : p' = p
    · subst hpp
      have hkey : key' ≠ key := by
        rintro rfl
        exact hold value hvalue
      rw [Function.update_self, Function.update_of_ne hkey]
      exact hvalue
    · rw [Function.update_of_ne hpp]
      exact hvalue
  outside := by
    intro p' hp'
    have hpp : p' ≠ p := fun he => hp' (he ▸ hmem)
    rw [Function.update_of_ne hpp]
    exact h.outside p' hp'

/-- A bucket is created. -/
theorem created (h : Linked w I ρ m) (hp : p ∈ [] :: w) (hmem : p ∈ I) (hnone : m p key = none)
    (root root' : Nat) {value : Bytes} (hlength : value.length = 4) :
    Linked (w ++ [p ++ [key]]) (insert (p ++ [key]) I)
      (Function.update (Function.update ρ p root) (p ++ [key]) root')
      (Function.update m p (Function.update (m p) key (some (value, true)))) where
  user := Finset.mem_insert_of_mem h.user
  child := by
    intro p' key' value' hvalue
    -- A sub-bucket is the new one, or it was one before and has kept its record.
    by_cases hq : p' ++ [key'] = p ++ [key]
    · obtain ⟨rfl, hkey⟩ := List.append_inj' hq rfl
      obtain rfl : key' = key := List.singleton_inj.1 hkey
      rw [Function.update_self, Function.update_self] at hvalue
      obtain rfl : value = value' := congrArg Prod.fst (Option.some.inj hvalue)
      exact ⟨Finset.mem_insert_self _ _, hlength,
        fun hw => absurd (List.mem_append_right w List.mem_cons_self) hw⟩
    · have hsame : m p' key' = some (value', true) := by
        by_cases hpp : p' = p
        · subst hpp
          have hkey : key' ≠ key := by
            rintro rfl
            exact hq rfl
          rwa [Function.update_self, Function.update_of_ne hkey] at hvalue
        · rwa [Function.update_of_ne hpp] at hvalue
      obtain ⟨hI, hlength', hroot⟩ := h.child p' key' value' hsame
      refine ⟨Finset.mem_insert_of_mem hI, hlength', fun hw => ?_⟩
      have hw' : p' ++ [key'] ∉ w := fun hold => hw (List.mem_append_left _ hold)
      rw [Function.update_of_ne hq, root_of_closed hp hw' root]
      exact hroot hw'
  record := by
    intro p' key' hI
    -- The record of the new bucket is the value that was put in; the others are as before.
    by_cases hq : p' ++ [key'] = p ++ [key]
    · obtain ⟨rfl, hkey⟩ := List.append_inj' hq rfl
      obtain rfl : key' = key := List.singleton_inj.1 hkey
      exact ⟨value, by rw [Function.update_self, Function.update_self]⟩
    · obtain ⟨value', hvalue⟩ := h.record p' key' ((Finset.mem_insert.1 hI).resolve_left hq)
      refine ⟨value', ?_⟩
      by_cases hpp : p' = p
      · subst hpp
        have hkey : key' ≠ key := by
          rintro rfl
          exact hq rfl
        rw [Function.update_self, Function.update_of_ne hkey]
        exact hvalue
      · rw [Function.update_of_ne hpp]
        exact hvalue
  outside := by
    intro p' hp'
    have hold : p' ∉ I := fun hI => hp' (Finset.mem_insert_of_mem hI)
    have hpp : p' ≠ p := fun he => hold (he ▸ hmem)
    rw [Function.update_of_ne hpp]
    exact h.outside p' hold

end Linked

/-- A bucket is opened after the bucket above it. -/
def Grown (w : List BucketPath) : Prop :=
  ∀ (i : Nat) (p : BucketPath) (key : Bytes), w[i]? = some (p ++ [key]) →
    p = [] ∨ ∃ j < i, w[j]? = some p

theorem Grown.concat {w : List BucketPath} {p : BucketPath} (h : Grown w) (hp : p ∈ [] :: w)
    (key : Bytes) : Grown (w ++ [p ++ [key]]) := by
  intro i q key' hi
  rcases Nat.lt_or_ge i w.length with hlt | hge
  · rw [List.getElem?_append_left hlt] at hi
    refine (h i q key' hi).imp_right ?_
    rintro ⟨j, hj, hw⟩
    exact ⟨j, hj, by rw [List.getElem?_append_left (Nat.lt_trans hj hlt)]; exact hw⟩
  · rw [List.getElem?_append_right hge] at hi
    have hlen := (List.getElem?_eq_some_iff.1 hi).1
    rw [List.length_singleton] at hlen
    obtain rfl : i = w.length := by omega
    rw [Nat.sub_self] at hi
    obtain ⟨rfl, -⟩ := List.append_inj' (Option.some.inj hi) rfl
    rcases List.mem_cons.1 hp with hnil | hmem
    · exact .inl hnil
    · obtain ⟨j, hj⟩ := List.getElem?_of_mem hmem
      exact .inr ⟨j, (List.getElem?_eq_some_iff.1 hj).1, by
        rw [List.getElem?_append_left (List.getElem?_eq_some_iff.1 hj).1]
        exact hj⟩

/-! ## The file and the store -/

/-- The file holds the buckets of the store; the room is for `n` calls. -/
structure Db.Stores (env : DbEnv) (b n : ℕ) (σ : BucketStore) (I : Finset BucketPath)
    (ρ : BucketPath → Nat) (m : BucketPath → Dictionary) (s : Db) : Prop where
  holds : s.Holds env (n * callRoom + b) σ.opened I ρ m
  listed : s.Listed σ.opened
  linked : Linked σ.opened I ρ m
  items : ∀ p key, σ.items p key = (m p key).map Holding.of
  grown : Grown σ.opened

namespace Db.Stores

variable {env : DbEnv} {b n : ℕ} {σ : BucketStore} {I : Finset BucketPath} {ρ : BucketPath → Nat}
  {m : BucketPath → Dictionary} {s : Db} {id : Nat} {p : BucketPath} {key value : Bytes}

theorem room (h : s.Stores env b (n + 1) σ I ρ m) :
    s.Holds env (n * callRoom + b + callRoom) σ.opened I ρ m := by
  have hholds := h.holds
  rw [Nat.succ_mul, Nat.add_right_comm] at hholds
  exact hholds

/-- A call that leaves the file as it is. -/
theorem skip (h : s.Stores env b (n + 1) σ I ρ m) : s.Stores env b n σ I ρ m where
  holds := h.room.room_mono (Nat.le_add_right _ _)
  listed := h.listed
  linked := h.linked
  items := h.items
  grown := h.grown

/-- What the store has after one record has changed. -/
theorem items_set (h : ∀ p key, σ.items p key = (m p key).map Holding.of) (p : BucketPath)
    (key : Bytes) (x : Option (Bytes × Bool)) (p' : BucketPath) (key' : Bytes) :
      (σ.set p key (x.map Holding.of)).items p' key' =
      (Function.update m p (Function.update (m p) key x) p' key').map Holding.of := by
  show Function.update σ.items p (Function.update (σ.items p) key (x.map Holding.of)) p' key' = _
  by_cases hp : p' = p
  · subst hp
    rw [Function.update_self, Function.update_self]
    by_cases hkey : key' = key
    · rw [hkey, Function.update_self, Function.update_self]
    · rw [Function.update_of_ne hkey, Function.update_of_ne hkey]
      exact h p' key'
  · rw [Function.update_of_ne hp, Function.update_of_ne hp]
    exact h p' key'

theorem set_self (item : Option Holding) (h : σ.items p key = item) : σ.set p key item = σ := by
  unfold BucketStore.set
  rw [← h, Function.update_eq_self, Function.update_eq_self]

/-- A record of a sub-bucket is shown as a bucket. -/
theorem item_eq_bucket (h : s.Stores env b n σ I ρ m) : σ.items p key = some .bucket ↔
    ∃ value, m p key = some (value, true) := by
  rw [h.items]
  constructor
  · intro hitem
    obtain ⟨⟨value, flag⟩, hr, hof⟩ := Option.map_eq_some_iff.1 hitem
    obtain rfl : flag = true := Holding.of_eq_bucket.1 hof
    exact ⟨value, hr⟩
  · rintro ⟨value, hvalue⟩
    rw [hvalue]
    rfl

/-- **`SubUpdateBucket`.** -/
theorem sub (h : s.Stores env b (n + 1) σ I ρ m) (hp : pathOf σ.opened id = some p)
    (hbucket : ∀ item ∈ σ.items p key, item = .bucket)
    (hslim : σ.items p key = none → SlimRecord env.pageSize key (Pager.encodeU32 kPageInvalidId))
    (hfew : σ.opened.length + 1 < kUserRootBucketId) :
      ∃ i s' I' ρ' m', Bucket.subBucket env id key true s = (.ok i, s') ∧
      s'.Stores env b n ((σ.openAt (p ++ [key])).set p key (some .bucket)) I' ρ' m' := by
  have hgrown : Grown (σ.opened ++ [p ++ [key]]) := h.grown.concat (mem_of_pathOf hp) key
  by_cases hq : p ++ [key] ∈ σ.opened
  · -- the bucket is open
    obtain ⟨i, hi⟩ := List.getElem?_of_mem hq
    have hlt : i < σ.opened.length := (List.getElem?_eq_some_iff.1 hi).1
    have hpath : pathOf σ.opened i = some (p ++ [key]) := by
      unfold pathOf
      rw [if_neg (Nat.ne_of_lt (Nat.lt_trans hlt h.holds.rooted.cached.few))]
      exact hi
    have hitem := h.item_eq_bucket.2 (h.linked.record p key (h.holds.inside i _ hpath))
    refine ⟨i, s, I, ρ, m, h.holds.rooted.subBucket_of_open hp hi true, ?_⟩
    unfold BucketStore.openAt
    rw [if_pos hq, set_self _ hitem]
    exact h.skip
  · unfold BucketStore.openAt
    rw [if_neg hq]
    cases hitem : σ.items p key with
    | some item =>
      -- the file has it
      obtain rfl := hbucket item hitem
      obtain ⟨value, hvalue⟩ := h.item_eq_bucket.1 hitem
      obtain ⟨hI, hlength, hroot⟩ := h.linked.child p key value hvalue
      obtain ⟨s', hrun, hholds, hlisted⟩ :=
        h.holds.subBucket_of_record h.listed hp hq hfew hI hvalue hlength (hroot hq) true
      have hself : BucketStore.set { σ with opened := σ.opened ++ [p ++ [key]] } p key
          (some .bucket) = { σ with opened := σ.opened ++ [p ++ [key]] } := set_self _ hitem
      rw [hself]
      refine ⟨_, s', I, ρ, m, hrun, hholds.room_mono ?_, hlisted,
        h.linked.opened _, h.items, hgrown⟩
      exact Nat.add_le_add_right (Nat.mul_le_mul_right _ (Nat.le_succ n)) b
    | none =>
      -- it is created
      have hnone : m p key = none := Option.map_eq_none_iff.1 ((h.items p key).symm.trans hitem)
      have hI : p ++ [key] ∉ I := by
        intro hI
        obtain ⟨value, hvalue⟩ := h.linked.record p key hI
        rw [hnone] at hvalue
        cases hvalue
      obtain ⟨s', root, hrun, hholds, hlisted⟩ :=
        h.room.subBucket_of_absent h.listed hp hq hfew hI hnone
        (h.linked.outside _ hI) (hslim hitem) true
      refine ⟨_, s', _, _, _, hrun, hholds, hlisted, ?_,
        items_set h.items p key (some (_, true)), hgrown⟩
      exact h.linked.created (mem_of_pathOf hp) (h.holds.inside id p hp)
        hnone root kPageInvalidId rfl

/-- A plain `Put`. -/
theorem put (h : s.Stores env b (n + 1) σ I ρ m) (hp : pathOf σ.opened id = some p)
    (hslim : SlimRecord env.pageSize key value)
    (htakes : ∀ item ∈ σ.items p key, item.Takes value) :
    ∃ s' ρ' m', Bucket.put env id key value false s = (.ok (), s') ∧
      s'.Stores env b n (σ.set p key (some (.plain value))) I ρ' m' := by
  have hplain : ∀ old ∈ m p key, old.2 = false ∧ value.length ≤ old.1.length := by
    intro old hold
    have hitem : Holding.of old ∈ σ.items p key := by
      rw [h.items, Option.mem_def.1 hold]
      rfl
    exact (htakes _ hitem).plain
  have haccept : (m p).Accepts env.pageSize key value false := ⟨hslim, hplain⟩
  obtain ⟨s', hrun, hholds, hentries⟩ := h.room.put hp haccept
  refine ⟨s', _, _, hrun, hholds, h.listed.congr hentries.toSameIds, ?_,
    items_set h.items p key (some (value, false)), h.grown⟩
  apply h.linked.setPlain (mem_of_pathOf hp) (h.holds.inside id p hp)
  · intro old hold
    cases (hplain _ hold).1
  · intro old hold
    cases hold

/-- A plain `Delete`. -/
theorem delete (h : s.Stores env b (n + 1) σ I ρ m) (hp : pathOf σ.opened id = some p)
    (hbucket : σ.items p key ≠ some .bucket) : ∃ s' ρ' m',
      Bucket.delete env id key s = (.ok (σ.items p key).isSome, s') ∧
      s'.Stores env b n (σ.set p key none) I ρ' m' := by
  have hplain : ∀ old, m p key ≠ some (old, true) :=
    fun old hold => hbucket (h.item_eq_bucket.2 ⟨old, hold⟩)
  have hrelease : (m p).Releases key := by
    rintro ⟨old, flag⟩ hold rfl
    exact absurd (Option.mem_def.1 hold) (hplain old)
  obtain ⟨s', root, hrun, hholds, hentries⟩ := h.room.delete hp hrelease
  refine ⟨s', _, _, ?_, hholds, h.listed.congr hentries.toSameIds, ?_, items_set h.items p key none,
    h.grown⟩
  · rw [hrun, h.items, Option.isSome_map]
  · apply h.linked.setPlain (mem_of_pathOf hp) (h.holds.inside id p hp) hplain
    intro old hold
    cases hold

/-- One call. -/
theorem exec {c : BucketCall} (h : s.Stores env b (n + 1) σ I ρ m)
    (hc : (BucketStore.spec env.pageSize).permits σ c) :
    ∃ s' I' ρ' m', c.exec env s = (.ok ((BucketStore.spec env.pageSize).reply σ c), s') ∧
      s'.Stores env b n ((BucketStore.spec env.pageSize).next σ c) I' ρ' m' := by
  cases c with
  | sub p key =>
    obtain ⟨hp, hbucket, hslim, hfew⟩ := hc
    obtain ⟨id, hid, hpath⟩ := Bucket.named_eq h.holds.rooted.cached hp
    obtain ⟨i, s', I', ρ', m', hrun, h'⟩ := h.sub hpath hbucket hslim hfew
    refine ⟨s', I', ρ', m', ?_, h'⟩
    show (Bucket.named p >>= _) s = _
    rw [Exec.bind_of_ok hid, Exec.bind_of_ok hrun]
    rfl
  | get p key =>
    obtain ⟨id, hid, hpath⟩ := Bucket.named_eq h.holds.rooted.cached hc
    refine ⟨s, I, ρ, m, ?_, h.skip⟩
    show (Bucket.named p >>= _) s = (.ok (BucketReply.found (σ.items p key)), s)
    rw [Exec.bind_of_ok hid, Exec.bind_of_ok (h.holds.lookup hpath key), h.items]
    rfl
  | put p key value =>
    obtain ⟨hp, hslim, htakes⟩ := hc
    obtain ⟨id, hid, hpath⟩ := Bucket.named_eq h.holds.rooted.cached hp
    obtain ⟨s', ρ', m', hrun, h'⟩ := h.put hpath hslim htakes
    refine ⟨s', I, ρ', m', ?_, h'⟩
    show (Bucket.named p >>= _) s = _
    rw [Exec.bind_of_ok hid, Exec.bind_of_ok hrun]
    rfl
  | delete p key =>
    obtain ⟨hp, hbucket⟩ := hc
    obtain ⟨id, hid, hpath⟩ := Bucket.named_eq h.holds.rooted.cached hp
    obtain ⟨s', ρ', m', hrun, h'⟩ := h.delete hpath hbucket
    refine ⟨s', I, ρ', m', ?_, h'⟩
    show (Bucket.named p >>= _) s = (.ok (BucketReply.deleted (σ.items p key).isSome), s')
    rw [Exec.bind_of_ok hid, Exec.bind_of_ok hrun]
    rfl

end Db.Stores

/-- **Nested buckets are a store.** In a write transaction every sequence of calls, which opens and
creates buckets at any depth and reads, puts and deletes in them in any order, is answered as by the
store, and the file holds the store at the end. -/
theorem calls_nested {env : DbEnv} {b n : ℕ} {σ : BucketStore} {I : Finset BucketPath}
    {ρ : BucketPath → Nat} {m : BucketPath → Dictionary} {s : Db} {cs : List BucketCall}
    (h : s.Stores env b (cs.length + n) σ I ρ m)
    (hpermits : (BucketStore.spec env.pageSize).Permits σ cs) :
    ∃ s' I' ρ' m', Exec.calls (BucketCall.exec env) cs s =
      (.ok ((BucketStore.spec env.pageSize).replies σ cs), s') ∧
      s'.Stores env b n ((BucketStore.spec env.pageSize).after σ cs) I' ρ' m' := by
  have hstep : ∀ (n : ℕ) (σ : BucketStore) (s : Db), ∀ c ∈ cs,
      (∃ I ρ m, s.Stores env b (n + 1) σ I ρ m) → (BucketStore.spec env.pageSize).permits σ c →
      ∃ s', c.exec env s = (.ok ((BucketStore.spec env.pageSize).reply σ c), s') ∧
        ∃ I ρ m, s'.Stores env b n ((BucketStore.spec env.pageSize).next σ c) I ρ m := by
    rintro n σ s c - ⟨I, ρ, m, hs⟩ hc
    obtain ⟨s', I', ρ', m', hrun, hs'⟩ := hs.exec hc
    exact ⟨s', hrun, I', ρ', m', hs'⟩
  obtain ⟨s', hrun, I', ρ', m', h'⟩ :=
    Spec.calls_eq (R := fun n σ (s : Db) => ∃ I ρ m, s.Stores env b n σ I ρ m) cs
      hstep ⟨I, ρ, m, h⟩ hpermits
  exact ⟨s', I', ρ', m', hrun, h'⟩

/-- A write transaction on a new file. -/
def newDb : Db :=
  ⟨(layout 256 freshMeta kPageInvalidId []).pager, none, [], [], TxImpl.init freshMeta true⟩

theorem rooted_newDb : newDb.Rooted [] fun _ => kPageInvalidId where
  cached := ⟨by decide, by decide, rfl, rfl, fun i p hp => by cases hp⟩
  roots := by
    intro id p hp
    unfold pathOf at hp
    split_ifs at hp with hid
    · rw [hid]
      rfl
    · cases hp

theorem listed_newDb : newDb.Listed [] := by
  have hmap : ∀ id, (newDb.bucket id).bind BucketImpl.subBucketMap = none := by
    intro id
    unfold Db.bucket
    split_ifs
    · rfl
    · rfl
  constructor
  · intro id key e he
    unfold Db.entry at he
    rw [hmap id] at he
    cases he
  · intro id
    unfold Db.keys
    rw [hmap id]
    exact List.nodup_nil

theorem stores_newDb {mode : DbMode} {b n : ℕ} (hroom : 2 + (n * callRoom + b) ≤ kPageMaxCount) :
    newDb.Stores ⟨smallEnv, mode⟩ b n ⟨[], fun _ _ => none⟩ [[]].toFinset (fun _ => kPageInvalidId)
      fun _ _ => none where
  holds := rooted_newDb.holds_newFile rfl rfl hroom
  listed := listed_newDb
  linked := by
    refine ⟨by decide, fun _ _ _ h => (by cases h), ?_, fun _ _ => rfl⟩
    intro p key hp
    have hnil := List.mem_singleton.1 (List.mem_toFinset.1 hp)
    cases List.append_eq_nil_iff.1 hnil |>.2
  items := fun _ _ => rfl
  grown := fun i p key h => by cases h

def nestedCalls : List BucketCall :=
  [.sub [] [1], .put [] [5] [6], .sub [[1]] [2], .put [[1], [2]] [5] [7], .put [[1]] [5] [8],
    .get [[1], [2]] [5], .delete [[1]] [5], .sub [] [1], .get [[1]] [5],
      .get [[1]] [2], .get [] [5]]

/-- Buckets at two depths, with the same key. -/
theorem calls_nested_newDb : ∃ s' I' ρ' m',
    Exec.calls (BucketCall.exec ⟨smallEnv, .kUpdateInPlace⟩) nestedCalls newDb =
      (.ok [.done, .done, .done, .done, .done, .found (some (.plain [7])), .deleted true, .done,
        .found none, .found (some .bucket), .found (some (.plain [6]))], s') ∧
    s'.Stores ⟨smallEnv, .kUpdateInPlace⟩ 0 0
      ((BucketStore.spec 256).after ⟨[], fun _ _ => none⟩ nestedCalls) I' ρ' m' :=
  calls_nested (stores_newDb (by decide)) (by decide)

end AtomKV
