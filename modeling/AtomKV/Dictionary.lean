import AtomKV.Lib.Spec
import AtomKV.OverwriteLaw
import AtomKV.Slim
import AtomKV.Versions

/-!
# A tree as a dictionary

What a bucket's tree is for: it gives each key its value. `HoldsMap Γ b m O s` says that besides the
objects `O` the state holds a tree that stands for the dictionary `m`, with slim records only. As
long as the calls are such as `Permits` says, every `Get`, `Put` and `Delete` answers and acts as on
the dictionary, and no call touches the objects `O`.
-/

set_option autoImplicit false

namespace AtomKV

/-- The value and the bucket flag of each key. -/
abbrev Dictionary : Type := Bytes → Option (Bytes × Bool)

namespace Dictionary

/-- The records are those of the dictionary. -/
def Lists (m : Dictionary) (l : List (Bytes × Bytes × Bool)) : Prop := ∀ key, find key l = m key

theorem Lists.insert {m : Dictionary} {key value : Bytes} {isBucket : Bool}
    {A B : List (Bytes × Bytes × Bool)} (h : m.Lists (A ++ B)) (hnone : m key = none) :
    Lists (Function.update m key (some (value, isBucket))) (A ++ (key, value, isBucket) :: B) := by
  have habsent : find key A = none := by
    have hkey := h key
    rw [find_append, hnone] at hkey
    exact (Option.or_eq_none_iff.1 hkey).1
  intro k
  by_cases hk : k = key
  · subst hk
    rw [Function.update_self, find_append, habsent, Option.none_or]
    simp [find]
  · rw [Function.update_of_ne hk, ← h k, find_append, find_append]
    have hne : ¬ key = k := fun he => hk he.symm
    simp [find, hne]

theorem Lists.replace {m : Dictionary} {key value old : Bytes} {isBucket : Bool}
    {A B : List (Bytes × Bytes × Bool)} (h : m.Lists (A ++ (key, old, isBucket) :: B))
    (hA : ∀ d ∈ A, d.1 ≠ key) :
    Lists (Function.update m key (some (value, isBucket))) (A ++ (key, value, isBucket) :: B) := by
  obtain ⟨hnew, hsame⟩ := @find_replace key old value isBucket A B hA
  intro k
  by_cases hk : k = key
  · subst hk
    rw [Function.update_self]
    exact hnew
  · rw [Function.update_of_ne hk, ← h k]
    exact hsame k hk

theorem Lists.without {m : Dictionary} {l : List (Bytes × Bytes × Bool)} (h : m.Lists l)
    (key : Bytes) : Lists (Function.update m key none) (AtomKV.without key l) := by
  intro k
  by_cases hk : k = key
  · subst hk
    rw [Function.update_self]
    refine find_eq_none fun d hd => ?_
    exact of_decide_eq_true (List.mem_filter.1 hd).2
  · rw [Function.update_of_ne hk, ← h k]
    unfold find AtomKV.without
    rw [List.find?_filter]
    congr 2
    funext d
    by_cases hd : d.1 = k
    · have hne : ¬ d.1 = key := fun he => hk (hd.symm.trans he)
      simp [hd, hk]
    · simp [hd]

end Dictionary

/-! ## Slim trees -/

theorem Shape.Slim.of_parts {P : ℕ} {t : Shape} (hkeys : ∀ x ∈ t.flat, SlimKey P x.key)
    (hrecords : ∀ d ∈ t.contents, SlimRecord P d.1 d.2.1) : t.Slim P := by
  intro x hx
  cases x with
  | record d => exact hrecords d (mem_records.2 hx)
  | separator key => exact hkeys _ hx

theorem Shape.Slim.key {P : ℕ} {t : Shape} (h : t.Slim P) {k : Bytes} (hk : t.HasKey k) :
    SlimKey P k := by
  obtain ⟨x, hx, rfl⟩ := hk
  have hslim := h x hx
  cases x with
  | record d => exact hslim.1
  | separator key => exact hslim

theorem Shape.Slim.contents {P : ℕ} {t : Shape} (h : t.Slim P) {d : Bytes × Bytes × Bool}
    (hd : d ∈ t.contents) : SlimRecord P d.1 d.2.1 := h (.record d) (mem_records.1 hd)

section Holds

variable {Γ : Scope} {b : ℕ} {m : Dictionary} {O : Multiset Obj} {s : TxState}
  {key value : Bytes} {isBucket : Bool}

/-- A tree with slim records that stands for the dictionary, besides the objects `O` and pages that
nothing refers to. -/
def HoldsMap (Γ : Scope) (b : ℕ) (m : Dictionary) (O : Multiset Obj) (s : TxState) : Prop :=
  ∃ (t : Shape) (G : Multiset Obj), JunkOnly G ∧ WellFormed Γ b t (G + O) s ∧
    t.Slim Γ.P ∧ m.Lists t.contents

theorem WellFormed.holdsMap {t : Shape} (h : WellFormed Γ b t O s) (hslim : t.Slim Γ.P) :
    HoldsMap Γ b (fun key => find key t.contents) O s :=
  ⟨t, 0, JunkOnly.zero, by rwa [zero_add], hslim, fun _ => rfl⟩

/-- What a reader sees. -/
theorem HoldsMap.sees (h : HoldsMap Γ b m O s) : ∃ l, m.Lists l ∧ Sees Γ.env l s := by
  obtain ⟨t, G, -, hwf, -, hm⟩ := h
  exact ⟨t.contents, hm, hwf.shows.sees hwf.full⟩

theorem HoldsMap.lookup (h : HoldsMap Γ b m O s) (key : Bytes) :
    BTree.lookup Γ.env key s = (.ok (m key), s) := by
  obtain ⟨t, G, -, hwf, -, hm⟩ := h
  rw [hwf.lookup key, hm key]

/-- What a Put may be called with: a slim record, and over an old record a value of the same kind
that is not longer. -/
def Dictionary.Accepts (P : ℕ) (m : Dictionary) (key value : Bytes) (isBucket : Bool) : Prop :=
  SlimRecord P key value ∧ ∀ old ∈ m key, old.2 = isBucket ∧ value.length ≤ old.1.length

theorem HoldsMap.put (h : HoldsMap Γ (b + callRoom) m O s)
    (haccept : m.Accepts Γ.P key value isBucket) :
    ∃ s', BTree.put Γ.env key value isBucket s = (.ok (), s') ∧
      HoldsMap Γ b (Function.update m key (some (value, isBucket))) O s' := by
  obtain ⟨t, G, hG, hwf, hslim, hm⟩ := h
  obtain ⟨hrecord, hold⟩ := haccept
  have hadm := hrecord.admissible Γ.hP
  cases hfind : find key t.contents with
  | none =>
    obtain ⟨hclean, hroom⟩ := hwf.insertsCleanly hslim hrecord
    have hwf' : WellFormed Γ (b + t.putRoom Γ.P Γ.env.comparator key value) t (G + O) s :=
      hwf.with_room
        (Nat.le_trans (Nat.add_le_add_left (Nat.add_le_add_left hroom b) _) hwf.own.room)
    obtain ⟨_, s', hrun, hgood, -⟩ := hwf'.put_insert_keys hadm hfind isBucket
    obtain ⟨A, B, t', G', hA, hB, hkeys, hG', hend⟩ := hgood hclean
    refine ⟨s', hrun, t', G' + G, hG'.add hG, by rwa [add_assoc],
      .of_parts (fun x hx => ?_) (fun d hd => ?_), ?_⟩
    · rcases hkeys x hx with hkey | hkey
      · rw [hkey]
        exact hrecord.1
      · exact hslim.key hkey
    · rw [hB] at hd
      rcases List.mem_append.1 hd with hd | hd
      · exact hslim.contents (hA ▸ List.mem_append_left _ hd)
      · rcases List.mem_cons.1 hd with rfl | hd
        · exact hrecord
        · exact hslim.contents (hA ▸ List.mem_append_right _ hd)
    · rw [hB]
      exact (hA ▸ hm).insert ((hm key).symm.trans hfind)
  | some old =>
    obtain ⟨old, c⟩ := old
    obtain ⟨hflag, hle⟩ := hold (old, c) ((hm key).symm.trans hfind)
    obtain rfl : c = isBucket := hflag
    obtain ⟨hfits, hroom⟩ := hwf.overwriteFits hslim hrecord hfind hle
    have hwf' : WellFormed Γ (b + t.overwriteRoom Γ.P key value) t (G + O) s := hwf.with_room
      (Nat.le_trans (Nat.add_le_add_left (Nat.add_le_add_left hroom b) _) hwf.own.room)
    obtain ⟨_, s', hrun, A, B, t', run, hA, hB, hfirst, hkeys, hend⟩ :=
      (hwf'.put_overwrite_keys hadm hfind).1 hfits
    have hbefore : (key, old, c) ∈ t.contents := by
      rw [hA]
      exact List.mem_append_right _ List.mem_cons_self
    -- the old record had no pages of its own
    have hnone : recordsOf Γ.P [⟨key, old, c, run⟩] = 0 := by
      have hinline : ¬ Node.maxInline Γ.P < (⟨key, old, c, run⟩ : Entry).size :=
        Nat.not_lt.2 (hslim.contents hbefore).2
      unfold recordsOf
      rw [List.filter_cons_of_neg (by simpa using hinline)]
      rfl
    rw [hnone, zero_add] at hend
    refine ⟨s', hrun, t', G, hG, hend,
      .of_parts (fun x hx => hslim.key (hkeys x hx)) (fun d hd => ?_), ?_⟩
    · rw [hB] at hd
      rcases List.mem_append.1 hd with hd | hd
      · exact hslim.contents (hA ▸ List.mem_append_left _ hd)
      · rcases List.mem_cons.1 hd with rfl | hd
        · exact hrecord
        · exact hslim.contents (hA ▸ List.mem_append_right _ (List.mem_cons_of_mem _ hd))
    · rw [hB]
      exact (hA ▸ hm).replace hfirst

/-- What a Delete may be called with: no live sub-bucket. -/
def Dictionary.Releases (m : Dictionary) (key : Bytes) : Prop :=
  ∀ old ∈ m key, old.2 = true → old.1 = [0xff, 0xff, 0xff, 0xff]

instance (P : ℕ) (m : Dictionary) (key value : Bytes) (isBucket : Bool) :
    Decidable (m.Accepts P key value isBucket) :=
  inferInstanceAs (Decidable (_ ∧ _))

instance (m : Dictionary) (key : Bytes) : Decidable (m.Releases key) :=
  inferInstanceAs (Decidable (∀ _ ∈ _, _))

theorem HoldsMap.delete (h : HoldsMap Γ (b + callRoom) m O s) (hrelease : m.Releases key) :
    ∃ s', BTree.delete Γ.env key s = (.ok (m key).isSome, s') ∧
      HoldsMap Γ b (Function.update m key none) O s' := by
  obtain ⟨t, G, hG, hwf, hslim, hm⟩ := h
  obtain ⟨hclean, hroom⟩ := hwf.deletesCleanly hslim fun value hv => hrelease (value, true)
    ((hm key).symm.trans hv) rfl
  have hwf' : WellFormed Γ (b + t.deleteRoom Γ.P Γ.env.comparator key) t (G + O) s := hwf.with_room
    (Nat.le_trans (Nat.add_le_add_left (Nat.add_le_add_left hroom b) _) hwf.own.room)
  obtain ⟨s', hrun, t', G', hG', hcontents, hkeys, hend⟩ := (delete_removes_iff hwf').2 hclean
  refine ⟨s', ?_, t', G' + G, hG'.add hG, by rwa [add_assoc],
    .of_parts (fun x hx => hslim.key (hkeys x hx)) (fun d hd => ?_), ?_⟩
  · rw [hrun, hm key]
  · rw [hcontents] at hd
    exact hslim.contents (List.mem_filter.1 hd).1
  · rw [hcontents]
    exact hm.without key

end Holds

/-! ## Runs of calls -/

inductive TreeCall where
  | get (key : Bytes)
  | put (key value : Bytes) (isBucket : Bool)
  | delete (key : Bytes)

inductive TreeReply where
  /-- What `Get` has found. -/
  | found (value : Option (Bytes × Bool))
  | done
  | deleted (found : Bool)
  deriving DecidableEq

/-- The call of the tree code. -/
def TreeCall.exec (env : Env) : TreeCall → TxM TreeReply
  | .get key => do return .found (← BTree.lookup env key)
  | .put key value isBucket => do
      BTree.put env key value isBucket
      return .done
  | .delete key => do return .deleted (← BTree.delete env key)

/-- What the calls are for. -/
def Dictionary.spec (P : ℕ) : Spec TreeCall TreeReply Dictionary where
  permits
    | _, .get _ => True
    | m, .put key value isBucket => m.Accepts P key value isBucket
    | m, .delete key => m.Releases key
  reply
    | m, .get key => .found (m key)
    | _, .put _ _ _ => .done
    | m, .delete key => .deleted (m key).isSome
  next
    | m, .get _ => m
    | m, .put key value isBucket => Function.update m key (some (value, isBucket))
    | m, .delete key => Function.update m key none

instance (P : ℕ) (m : Dictionary) (c : TreeCall) : Decidable ((Dictionary.spec P).permits m c) :=
  match c with
  | .get _ => inferInstanceAs (Decidable True)
  | .put key value isBucket => inferInstanceAs (Decidable (m.Accepts P key value isBucket))
  | .delete key => inferInstanceAs (Decidable (m.Releases key))

section Runs

variable {Γ : Scope} {m : Dictionary} {O : Multiset Obj} {s : TxState}

theorem HoldsMap.room_mono {b b' : ℕ} (h : HoldsMap Γ b m O s) (hb : b' ≤ b) :
    HoldsMap Γ b' m O s := by
  obtain ⟨t, G, hG, hwf, hrest⟩ := h
  exact ⟨t, G, hG, hwf.with_room (Nat.le_trans (Nat.add_le_add_left hb _) hwf.own.room), hrest⟩

/-- One call. -/
theorem HoldsMap.exec {b : ℕ} {c : TreeCall} (h : HoldsMap Γ (b + callRoom) m O s)
    (hc : (Dictionary.spec Γ.P).permits m c) : ∃ s', c.exec Γ.env s =
      (.ok ((Dictionary.spec Γ.P).reply m c), s') ∧
      HoldsMap Γ b ((Dictionary.spec Γ.P).next m c) O s' := by
  cases c with
  | get key =>
    refine ⟨s, ?_, h.room_mono (Nat.le_add_right _ _)⟩
    show (BTree.lookup Γ.env key >>= _) s = _
    rw [Exec.bind_of_ok (h.lookup key)]
    rfl
  | put key value isBucket =>
    obtain ⟨s', hrun, hend⟩ := h.put hc
    refine ⟨s', ?_, hend⟩
    show (BTree.put Γ.env key value isBucket >>= _) s = _
    rw [Exec.bind_of_ok hrun]
    rfl
  | delete key =>
    obtain ⟨s', hrun, hend⟩ := h.delete hc
    refine ⟨s', ?_, hend⟩
    show (BTree.delete Γ.env key >>= _) s = _
    rw [Exec.bind_of_ok hrun]
    rfl

/-- **A tree is a dictionary.** Every sequence of permitted calls is answered as by the dictionary,
the tree stands for it afterwards, and the other objects are where they were. -/
theorem calls_tree {b : ℕ} {cs : List TreeCall} (h : HoldsMap Γ (cs.length * callRoom + b) m O s)
    (hpermits : (Dictionary.spec Γ.P).Permits m cs) :
    ∃ s', Exec.calls (TreeCall.exec Γ.env) cs s = (.ok ((Dictionary.spec Γ.P).replies m cs), s') ∧
      HoldsMap Γ b ((Dictionary.spec Γ.P).after m cs) O s' := by
  have hstep : ∀ n m s, ∀ c ∈ cs, HoldsMap Γ ((n + 1) * callRoom + b) m O s →
      (Dictionary.spec Γ.P).permits m c →
      ∃ s', TreeCall.exec Γ.env c s = (.ok ((Dictionary.spec Γ.P).reply m c), s') ∧
        HoldsMap Γ (n * callRoom + b) ((Dictionary.spec Γ.P).next m c) O s' := by
    intro n m s c _ hm hc
    rw [Nat.succ_mul, Nat.add_right_comm] at hm
    exact hm.exec hc
  obtain ⟨s', hrun, hend⟩ :=
    Spec.calls_eq (R := fun n m s => HoldsMap Γ (n * callRoom + b) m O s) cs hstep (n := 0) h
    hpermits
  rw [Nat.zero_mul, Nat.zero_add] at hend
  exact ⟨s', hrun, hend⟩

end Runs

/-- Two records are put, one of them is deleted. -/
def fewCalls : List TreeCall :=
  [.put [1] [2] false, .put [3] [4] false, .get [3], .delete [1], .get [1],
    .put [3] [5] false, .get [3]]

/-- The calls on a new file. -/
theorem calls_tree_fewCalls :
    ∃ s', Exec.calls (TreeCall.exec smallEnv) fewCalls (layout 256 freshMeta kPageInvalidId []) =
        (.ok [.done, .done, .found (some ([4], false)), .deleted true, .found none, .done,
          .found (some ([5], false))], s') ∧
      HoldsMap (layoutScope smallEnv smallEnv_ok freshMeta 0) 0
        ((Dictionary.spec 256).after (fun _ => none) fewCalls) 0 s' := by
  have hempty : WellFormed (layoutScope smallEnv smallEnv_ok freshMeta 0)
      (fewCalls.length * callRoom) .empty 0 (layout 256 freshMeta kPageInvalidId []) :=
        wellFormed_empty (by decide)
  exact @calls_tree (layoutScope smallEnv smallEnv_ok freshMeta 0) (fun _ => none) 0
    (layout 256 freshMeta kPageInvalidId []) 0 fewCalls
      (hempty.holdsMap fun x hx => absurd hx List.not_mem_nil)
    (show (Dictionary.spec 256).Permits (fun _ => none) fewCalls by decide)

end AtomKV
