import Mathlib.Data.List.Nodup

/-!
# Intrusive singly linked lists

A list is threaded through its own nodes: `next a` is the link stored in node
`a`, and address `0` ends the list. `Chain next p l` says that following the
links from `p` visits exactly the nodes `l`. A chain determines its nodes, so it
never visits a node twice; pushing and unlinking are local edits of `next`.
-/

namespace IntrusiveList

/-- Following the links from `p` visits exactly `l` and then reaches null. -/
def Chain (next : Nat → Nat) : Nat → List Nat → Prop
  | p, [] => p = 0
  | p, a :: l => p = a ∧ a ≠ 0 ∧ Chain next (next a) l

/-- The nodes visited from `p`, or `none` when null is not reached within the
given number of nodes. -/
def walk (next : Nat → Nat) : Nat → Nat → Option (List Nat)
  | 0, p => if p = 0 then some [] else none
  | fuel + 1, p => if p = 0 then some [] else (walk next fuel (next p)).map (p :: ·)

variable {next next' : Nat → Nat} {p : Nat} {l : List Nat}

/-- An empty chain is a null pointer. -/
@[simp] theorem chain_nil : Chain next p [] ↔ p = 0 := Iff.rfl

/-- A chain starts at its first node, which is not null. -/
@[simp] theorem chain_cons {a : Nat} :
    Chain next p (a :: l) ↔ p = a ∧ a ≠ 0 ∧ Chain next (next a) l := Iff.rfl

/-- The links determine the visited nodes. -/
theorem Chain.unique (h : Chain next p l) {l' : List Nat} (h' : Chain next p l') : l = l' := by
  induction l generalizing p l' with
  | nil =>
    cases l' with
    | nil => rfl
    | cons b l' => exact absurd (h'.1.symm.trans h) h'.2.1
  | cons a l ih =>
    cases l' with
    | nil => exact absurd (h.1.symm.trans h') h.2.1
    | cons b l' =>
      obtain ⟨rfl, _, ht⟩ := h
      obtain ⟨rfl, _, ht'⟩ := h'
      rw [ih ht ht']

/-- The links reached after a prefix of the nodes visit the remaining nodes. -/
theorem Chain.suffix {pre : List Nat} (h : Chain next p (pre ++ l)) : ∃ q, Chain next q l := by
  induction pre generalizing p with
  | nil => exact ⟨p, h⟩
  | cons a pre ih => exact ih h.2.2

/-- Following links never revisits a node before null. -/
theorem Chain.nodup (h : Chain next p l) : l.Nodup := by
  induction l generalizing p with
  | nil => exact List.nodup_nil
  | cons a l ih =>
    refine List.nodup_cons.mpr ⟨fun hmem => ?_, ih h.2.2⟩
    -- A second visit of `a` would make the rest of the list its own proper suffix.
    obtain ⟨pre, post, rfl⟩ := List.append_of_mem hmem
    obtain ⟨q, hq⟩ := h.2.2.suffix
    have hlen := congrArg List.length (hq.2.2.unique h.2.2)
    simp only [List.length_append, List.length_cons] at hlen
    omega

/-- A chain only reads the links of its own nodes. -/
theorem Chain.congr (h : Chain next p l) (hn : ∀ a ∈ l, next' a = next a) : Chain next' p l := by
  induction l generalizing p with
  | nil => exact h
  | cons a l ih =>
    obtain ⟨rfl, hne, ht⟩ := h
    refine ⟨rfl, hne, ?_⟩
    rw [hn p List.mem_cons_self]
    exact ih ht fun b hb => hn b (List.mem_cons_of_mem _ hb)

/-- Linking a fresh node in front of a chain. -/
theorem Chain.push (h : Chain next p l) {a : Nat} (ha : a ≠ 0) (hlink : next' a = p)
    (hn : ∀ b ∈ l, next' b = next b) : Chain next' a (a :: l) :=
  ⟨rfl, ha, hlink ▸ h.congr hn⟩

/-- Unlinking an inner node: its predecessor takes over its link. -/
theorem Chain.unlink {pre post : List Nat} {b a : Nat}
    (h : Chain next p (pre ++ b :: a :: post)) (hlink : next' b = next a)
    (hn : ∀ c ∈ pre ++ b :: a :: post, c ≠ b → next' c = next c) :
    Chain next' p (pre ++ b :: post) := by
  have hnodup := h.nodup
  induction pre generalizing p with
  | nil =>
    obtain ⟨rfl, hne, rfl, _, ht⟩ := h
    refine ⟨rfl, hne, ?_⟩
    rw [hlink]
    refine ht.congr fun c hc => hn c (by simp [hc]) ?_
    rintro rfl
    simp [hc] at hnodup
  | cons c pre ih =>
    obtain ⟨rfl, hne, ht⟩ := h
    have hcb : p ≠ b := by
      rintro rfl
      simp at hnodup
    refine ⟨rfl, hne, ?_⟩
    rw [hn p (by simp) hcb]
    exact ih ht (fun d hd => hn d (List.mem_cons_of_mem _ hd)) ht.nodup

/-- Redirecting the last of some leading nodes, counted from a node `a` in front of the list: its
link now leads to another tail. -/
theorem Chain.redirect {a : Nat} {pre tail tail' : List Nat} (hnodup : (a :: pre).Nodup)
    (h : Chain next (next a) (pre ++ tail))
    (hn : ∀ c ∈ a :: pre, c ≠ (a :: pre).getLast (List.cons_ne_nil a pre) → next' c = next c)
    (htail : Chain next' (next' ((a :: pre).getLast (List.cons_ne_nil a pre))) tail') :
    Chain next' (next' a) (pre ++ tail') := by
  induction pre generalizing a with
  | nil => exact htail
  | cons c pre ih =>
    obtain ⟨hac, hne, ht⟩ := h
    have hlast : (a :: c :: pre).getLast (List.cons_ne_nil a _) =
        (c :: pre).getLast (List.cons_ne_nil c pre) := List.getLast_cons_cons
    rw [hlast] at hn htail
    obtain ⟨ha, hrest⟩ := List.nodup_cons.mp hnodup
    -- The front node is not the redirected one, so it still leads to `c`.
    have hkeep : next' a = next a :=
      hn a List.mem_cons_self (ne_of_mem_of_not_mem (List.getLast_mem _) ha).symm
    rw [hkeep]
    refine ⟨hac, hne, ih hrest ht (fun d hd => hn d (List.mem_cons_of_mem a hd)) htail⟩

/-- A walk with enough fuel lists exactly the chain. -/
theorem Chain.walk_eq (h : Chain next p l) {fuel : Nat} (hf : l.length ≤ fuel) :
    walk next fuel p = some l := by
  induction l generalizing p fuel with
  | nil => cases fuel <;> simp [walk, chain_nil.mp h]
  | cons a l ih =>
    obtain ⟨rfl, hne, ht⟩ := h
    cases fuel with
    | zero => simp at hf
    | succ fuel =>
      rw [walk, if_neg hne, ih ht (by simpa using hf)]
      rfl

/-- A walk that ends has listed a chain. -/
theorem chain_of_walk {fuel : Nat} (h : walk next fuel p = some l) :
    Chain next p l ∧ l.length ≤ fuel := by
  induction fuel generalizing p l with
  | zero =>
    rw [walk, Option.ite_none_right_eq_some] at h
    obtain ⟨rfl, h⟩ := h
    cases h
    exact ⟨rfl, Nat.le_refl 0⟩
  | succ fuel ih =>
    rw [walk] at h
    split_ifs at h with hp
    · cases h
      exact ⟨hp, Nat.zero_le _⟩
    · obtain ⟨as, has, rfl⟩ := Option.map_eq_some_iff.mp h
      obtain ⟨hchain, hlength⟩ := ih has
      exact ⟨⟨rfl, hp, hchain⟩, Nat.succ_le_succ hlength⟩

end IntrusiveList
