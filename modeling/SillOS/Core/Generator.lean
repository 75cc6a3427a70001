import Mathlib.Data.List.Basic

/-!
# Generators

A generator is a state with a call that yields a value, or nothing when it is
exhausted. Its behaviour over any number of calls follows from one fact about a
single call: it yields the head of a pending list and leaves the tail pending. A client
draws from the generator as often as it likes, depending on what it has got so far.
-/

namespace Generator

variable {σ α β : Type*}

/-- The results of `n` calls and the state after them; `none` if a call does not return. -/
def calls (next : σ → Option (Option α × σ)) : Nat → σ → Option (List (Option α) × σ)
  | 0, s => some ([], s)
  | n + 1, s => do
    let (a, t) ← next s
    let (as, u) ← calls next n t
    return (a :: as, u)

/-- A generator that always yields the head of its pending list yields the whole
list in order and then nothing. -/
theorem calls_of_pending {next : σ → Option (Option α × σ)} {I : σ → Prop}
    {pending : σ → List β} {view : α → β}
    (hnext : ∀ s, I s → ∃ a t, next s = some (a, t) ∧ I t ∧
      a.map view = (pending s).head? ∧ pending t = (pending s).tail)
    (n : Nat) {s : σ} (hs : I s) :
    ∃ as t, calls next n s = some (as, t) ∧ I t ∧
      as.map (Option.map view) = (List.range n).map fun i => (pending s)[i]? := by
  induction n generalizing s with
  | zero => exact ⟨[], s, rfl, hs, rfl⟩
  | succ n ih =>
    obtain ⟨a, t, ht, hI, hhead, htail⟩ := hnext s hs
    obtain ⟨as, u, hu, hI', has⟩ := ih hI
    refine ⟨a :: as, u, ?_, hI', ?_⟩
    · simp only [calls, ht, hu, Option.bind_eq_bind, Option.bind_some]
      rfl
    · have hrest : ∀ i, (pending t)[i]? = (pending s)[i + 1]? := by
        intro i
        rw [htail, List.getElem?_tail]
      simp only [List.range_succ_eq_map, List.map_cons, List.map_map, has, hhead, hrest,
        List.head?_eq_getElem?]
      rfl

/-- The state after some calls has the rest of the list pending. -/
theorem pending_calls {next : σ → Option (Option α × σ)} {I : σ → Prop}
    {pending : σ → List β} {view : α → β}
    (hnext : ∀ s, I s → ∃ a t, next s = some (a, t) ∧ I t ∧
      a.map view = (pending s).head? ∧ pending t = (pending s).tail)
    {n : Nat} {s t : σ} {as : List (Option α)} (hs : I s) (h : calls next n s = some (as, t)) :
    I t ∧ pending t = (pending s).drop n ∧
      as.map (Option.map view) = (List.range n).map fun i => (pending s)[i]? := by
  have hstate : I t ∧ pending t = (pending s).drop n := by
    induction n generalizing s as with
    | zero =>
      cases h
      exact ⟨hs, rfl⟩
    | succ n ih =>
      obtain ⟨a, u, hu, hI, -, htail⟩ := hnext s hs
      simp only [calls, hu, Option.bind_eq_bind, Option.bind_some] at h
      obtain ⟨⟨as', t'⟩, hcalls, heq⟩ := Option.bind_eq_some_iff.mp h
      cases heq
      obtain ⟨hI', hdrop⟩ := ih hI hcalls
      refine ⟨hI', ?_⟩
      rw [hdrop, htail, ← List.drop_one, List.drop_drop, Nat.add_comm]
  obtain ⟨as', t', hcalls, -, hresults⟩ := calls_of_pending hnext n hs
  rw [h] at hcalls
  cases hcalls
  exact ⟨hstate.1, hstate.2, hresults⟩

/-- What some calls yield was among the first pending. -/
theorem mem_take_of_calls {next : σ → Option (Option α × σ)} {I : σ → Prop}
    {pending : σ → List β} {view : α → β}
    (hnext : ∀ s, I s → ∃ a t, next s = some (a, t) ∧ I t ∧
      a.map view = (pending s).head? ∧ pending t = (pending s).tail)
    {n : Nat} {s t : σ} {as : List (Option α)} (hs : I s) (h : calls next n s = some (as, t))
    {a : α} (ha : some a ∈ as) : view a ∈ (pending s).take n := by
  obtain ⟨-, -, hview⟩ := pending_calls hnext hs h
  have hmem : some (view a) ∈ (List.range n).map fun i => (pending s)[i]? :=
    hview ▸ List.mem_map_of_mem (f := Option.map view) ha
  obtain ⟨i, hi, hget⟩ := List.mem_map.mp hmem
  refine List.mem_iff_getElem?.mpr ⟨i, ?_⟩
  rw [List.getElem?_take_of_lt (List.mem_range.mp hi), hget]

/-- All that some calls yield, in order. -/
theorem filterMap_calls {next : σ → Option (Option α × σ)} {I : σ → Prop}
    {pending : σ → List β} {view : α → β}
    (hnext : ∀ s, I s → ∃ a t, next s = some (a, t) ∧ I t ∧
      a.map view = (pending s).head? ∧ pending t = (pending s).tail)
    {n : Nat} {s t : σ} {as : List (Option α)} (hs : I s) (h : calls next n s = some (as, t)) :
    (as.filterMap id).map view = (pending s).take n := by
  induction n generalizing s as with
  | zero =>
    cases h
    rfl
  | succ n ih =>
    obtain ⟨a, u, hu, hI, hhead, htail⟩ := hnext s hs
    simp only [calls, hu, Option.bind_eq_bind, Option.bind_some] at h
    obtain ⟨⟨as', t'⟩, hcalls, heq⟩ := Option.bind_eq_some_iff.mp h
    cases heq
    have hrest := ih hI hcalls
    cases hpending : pending s with
    | nil =>
      rw [hpending] at hhead htail
      obtain rfl := Option.map_eq_none_iff.mp hhead
      rw [htail] at hrest
      rw [List.filterMap_cons_none rfl, hrest, List.tail_nil, List.take_nil, List.take_nil]
    | cons b bs =>
      rw [hpending] at hhead htail
      obtain ⟨x, rfl, rfl⟩ := Option.map_eq_some_iff.mp hhead
      rw [htail] at hrest
      exact congrArg (view x :: ·) hrest

/-! ## Clients -/

/-- A computation that draws from a generator. -/
inductive Client (α τ : Type*) where
  | done (result : τ)
  | draw (rest : Option α → Client α τ)

namespace Client

variable {τ : Type*}

/-- The client can end with this result, whatever the generator yields. -/
def Ends : Client α τ → τ → Prop
  | .done result, r => r = result
  | .draw rest, r => ∃ a, (rest a).Ends r

/-- Run a client: its result, what it has drawn, and the generator afterwards. -/
def run (next : σ → Option (Option α × σ)) : Client α τ → σ → Option (τ × List α × σ)
  | .done result, s => some (result, [], s)
  | .draw rest, s => (next s).bind fun (a, t) =>
    ((rest a).run next t).map fun (result, as, u) => (result, a.toList ++ as, u)

/-- A client draws the beginning of the pending list. -/
theorem run_of_pending {next : σ → Option (Option α × σ)} {I : σ → Prop}
    {pending : σ → List β} {view : α → β}
    (hnext : ∀ s, I s → ∃ a t, next s = some (a, t) ∧ I t ∧
      a.map view = (pending s).head? ∧ pending t = (pending s).tail)
    (c : Client α τ) {s : σ} (hs : I s) :
    ∃ r as t, c.run next s = some (r, as, t) ∧ I t ∧ c.Ends r ∧
      pending s = as.map view ++ pending t := by
  induction c generalizing s with
  | done result => exact ⟨result, [], s, rfl, hs, rfl, rfl⟩
  | draw rest ih =>
    obtain ⟨a, t, ht, hI, hhead, htail⟩ := hnext s hs
    obtain ⟨r, as, u, hu, hI', hends, hpending⟩ := ih a hI
    refine ⟨r, a.toList ++ as, u, ?_, hI', ⟨a, hends⟩, ?_⟩
    · simp only [run, ht, hu, Option.bind_some, Option.map_some]
    · rw [List.map_append, List.append_assoc, ← hpending, htail]
      cases hs' : pending s with
      | nil =>
        rw [hs', List.head?_nil, Option.map_eq_none_iff] at hhead
        rw [hhead]
        rfl
      | cons x xs =>
        rw [hs', List.head?_cons, Option.map_eq_some_iff] at hhead
        obtain ⟨y, rfl, rfl⟩ := hhead
        rfl

end Client

end Generator
