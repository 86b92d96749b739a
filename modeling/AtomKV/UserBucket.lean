import AtomKV.Log
import AtomKV.Overwrite
import AtomKV.Put

/-!
# The contents of the user bucket

What Put and Delete do to the records of the user bucket, in key order, and which sizes make Put
throw: the engine that the log replays. `BTree::Put` on a well-formed tree acts on the records in
this way, wherever the insertion and the overwrite laws hold.
-/

set_option autoImplicit false

namespace AtomKV

/-! ## Records in key order -/

section Records

variable (cmp : Bytes → Bytes → Ordering)

/-- The records after a Put of `d`. -/
def putRecord (d : Bytes × Bytes × Bool) : List (Bytes × Bytes × Bool) → List (Bytes × Bytes × Bool)
  | [] => [d]
  | e :: l => match cmp d.1 e.1 with
    | .lt => d :: e :: l
    | .eq => d :: l
    | .gt => e :: putRecord d l

/-- The records after a Delete. -/
def deleteRecord (key : Bytes) (l : List (Bytes × Bytes × Bool)) : List (Bytes × Bytes × Bool) :=
  l.filter fun d => cmp d.1 key ≠ .eq

variable {cmp}

/-- The records that are smaller stay in front. -/
theorem putRecord_append [Std.TransCmp cmp] {d : Bytes × Bytes × Bool}
    {A : List (Bytes × Bytes × Bool)} (h : ∀ e ∈ A, cmp e.1 d.1 = .lt)
    (B : List (Bytes × Bytes × Bool)) : putRecord cmp d (A ++ B) = A ++ putRecord cmp d B := by
  induction A with
  | nil => rfl
  | cons e A ih =>
    have hgt : cmp d.1 e.1 = .gt := Std.OrientedCmp.gt_of_lt (h e List.mem_cons_self)
    rw [List.cons_append, putRecord, hgt]
    show e :: putRecord cmp d (A ++ B) = _
    rw [ih fun e' he' => h e' (List.mem_cons_of_mem _ he')]
    rfl

theorem putRecord_new {d : Bytes × Bytes × Bool} {B : List (Bytes × Bytes × Bool)}
    (h : ∀ e ∈ B, cmp d.1 e.1 = .lt) : putRecord cmp d B = d :: B := by
  cases B with
  | nil => rfl
  | cons e B =>
    rw [putRecord, h e List.mem_cons_self]

theorem putRecord_old [Std.TransCmp cmp] (key value old : Bytes) (b c : Bool)
    (B : List (Bytes × Bytes × Bool)) :
    putRecord cmp (key, value, b) ((key, old, c) :: B) = (key, value, b) :: B := by
  have heq : cmp key key = .eq := Std.ReflCmp.compare_self
  rw [putRecord, heq]

/-- The records of a tree are in order. -/
theorem Shape.Ordered.contents {t : Shape} (h : t.Ordered cmp) :
    t.contents.Pairwise fun a d => cmp a.1 d.1 = .lt := by
  unfold Shape.contents records
  rw [List.pairwise_filterMap]
  refine List.Pairwise.imp ?_ h
  intro x y hxy a ha d hd
  cases x with
  | separator k => cases ha
  | record a' =>
    cases y with
    | separator k => cases hd
    | record d' =>
      cases ha
      cases hd
      exact hxy

end Records

/-! ## The engine -/

/-- The user bucket. A call that throws is taken to change nothing. -/
def userEngine (env : Env) : Engine (List (Bytes × Bytes × Bool)) where
  empty := []
  throws
    | .put key value _, _ =>
        if key.length > env.pageSize ∨ key.length > kKeyMaxSize then
          some (.invalidArgument "Key size exceeds the limit.")
        else if value.length > kValueMaxSize then
          some (.invalidArgument "Value size exceeds the limit.")
        else none
    | .delete _, _ => none
  apply
    | .put key value isBucket, c =>
        if (key.length > env.pageSize ∨ key.length > kKeyMaxSize) ∨ value.length > kValueMaxSize
          then c
        else putRecord env.comparator (key, value, isBucket) c
    | .delete key, c => deleteRecord env.comparator key c

section Engine

variable {Γ : Scope} {b : ℕ} {t : Shape} {O : Multiset Obj} {s : TxState} {key value : Bytes}

/-- A Put throws unless the sizes are admissible. -/
theorem userEngine_throws_iff (env : Env) (isBucket : Bool) (c : List (Bytes × Bytes × Bool)) :
    (userEngine env).throws (.put key value isBucket) c = none ↔
    Admissible env.pageSize key value := by
  show (if _ then _ else if _ then _ else _ : Option Err) = none ↔ _
  constructor
  · intro h
    split_ifs at h with h1 h2
    exact ⟨by
      show key.length ≤ env.pageSize
      omega, by
      show key.length ≤ kKeyMaxSize
      omega, by
      show value.length ≤ kValueMaxSize
      omega⟩
  · rintro ⟨h1, h2, h3⟩
    have h1' : key.length ≤ env.pageSize := h1
    have h2' : key.length ≤ kKeyMaxSize := h2
    have h3' : value.length ≤ kValueMaxSize := h3
    rw [if_neg (by omega), if_neg (by omega)]

theorem userEngine_apply {env : Env} (hadm : Admissible env.pageSize key value) (isBucket : Bool)
    (c : List (Bytes × Bytes × Bool)) : (userEngine env).apply (.put key value isBucket) c =
      putRecord env.comparator (key, value, isBucket) c := by
  obtain ⟨h1, h2, h3⟩ := hadm
  have h1' : key.length ≤ env.pageSize := h1
  have h2' : key.length ≤ kKeyMaxSize := h2
  have h3' : value.length ≤ kValueMaxSize := h3
  show (if _ then _ else _) = _
  rw [if_neg (by omega)]

/-- **A new record.** -/
theorem WellFormed.put_apply_new
    (h : WellFormed Γ (b + t.putRoom Γ.P Γ.env.comparator key value) t O s)
    (hadm : Admissible Γ.P key value) (habsent : find key t.contents = none)
    (hclean : t.InsertsCleanly Γ.P Γ.env.comparator key value) (isBucket : Bool) :
    Exec.Ok (BTree.put Γ.env key value isBucket) s fun _ s' => ∃ (t' : Shape) (O' : Multiset Obj),
      t'.contents = (userEngine Γ.env).apply (.put key value isBucket) t.contents ∧
      WellFormed Γ b t' O' s' := by
  have := Γ.ok.trans
  refine (h.put_insert hadm habsent isBucket).imp fun _ s' hput => ?_
  obtain ⟨A, B, t', G, hold, hnew, -, hwf⟩ := hput.1 hclean
  have hsorted := hwf.ordered.contents
  rw [hnew, List.pairwise_append, List.pairwise_cons] at hsorted
  obtain ⟨-, ⟨hB, -⟩, hA⟩ := hsorted
  refine ⟨t', G + O, ?_, hwf⟩
  rw [userEngine_apply hadm, hold, hnew, putRecord_append fun e he => hA e he _ List.mem_cons_self,
    putRecord_new hB]

/-- **An overwrite.** -/
theorem WellFormed.put_apply_old (h : WellFormed Γ (b + t.overwriteRoom Γ.P key value) t O s)
    {old : Bytes} {isBucket : Bool} (hadm : Admissible Γ.P key value)
    (hfind : find key t.contents = some (old, isBucket))
    (hfits : BTree.OverwriteFits Γ.env key value s) :
    Exec.Ok (BTree.put Γ.env key value isBucket) s fun _ s' => ∃ (t' : Shape) (O' : Multiset Obj),
      t'.contents = (userEngine Γ.env).apply (.put key value isBucket) t.contents ∧
      WellFormed Γ b t' O' s' := by
  have := Γ.ok.trans
  refine ((h.put_overwrite hadm hfind).1 hfits).imp fun _ s' hput => ?_
  obtain ⟨A, B, t', O', hold, hnew, -, hwf⟩ := hput
  have hsorted := hwf.ordered.contents
  rw [hnew, List.pairwise_append] at hsorted
  obtain ⟨-, -, hA⟩ := hsorted
  refine ⟨t', O', ?_, hwf⟩
  rw [userEngine_apply hadm, hold, hnew, putRecord_append fun e he => hA e he _ List.mem_cons_self,
    putRecord_old]

end Engine

end AtomKV
