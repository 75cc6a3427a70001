import Mathlib.Data.Set.Lattice
import Mathlib.Order.CompletePartialOrder
import Mathlib.Tactic.Linarith

/-!
# Merging blocks with their mates

Blocks are freed into a set. A block whose mate is in the set is joined with it
and the joined block is freed in turn; otherwise the block itself is added. Each
block has at most one mate and the relation is symmetric, so two different
merges never compete for a block, and the final set does not depend on the order
in which blocks are freed.
-/

/-- Blocks of type `β`, each with the nonempty set of points of type `γ` it
occupies, at most one mate, and the block it forms with that mate. -/
structure MergeSystem (β γ : Type*) where
  /-- The only block a block can be joined with, if any. -/
  mate : β → Option β
  /-- The block formed by a block and its mate. -/
  join : β → β
  /-- The points of a block. -/
  foot : β → Set γ
  /-- How often a block can still be joined. -/
  rank : β → Nat
  /-- Mates are mutual. -/
  mate_symm : ∀ {b c}, mate b = some c → mate c = some b
  /-- Both mates form the same block. -/
  join_eq : ∀ {b c}, mate b = some c → join b = join c
  /-- A joined block occupies the points of its two parts. -/
  foot_join : ∀ {b c}, mate b = some c → foot (join b) = foot b ∪ foot c
  /-- Every block occupies some point. -/
  foot_nonempty : ∀ b, (foot b).Nonempty
  /-- Joining uses up rank. -/
  rank_join : ∀ {b c}, mate b = some c → rank (join b) < rank b

namespace MergeSystem

variable {β γ : Type*} (S : MergeSystem β γ)

open Classical in
/-- Free a block into a set, joining it with its mate as long as that is free. -/
noncomputable def free (F : Set β) (b : β) : Set β :=
  match _h : S.mate b with
  | none => insert b F
  | some c => if c ∈ F then free (F \ {c}) (S.join b) else insert b F
termination_by S.rank b
decreasing_by exact S.rank_join ‹_›

/-- A block whose mate is absent is added as it is. -/
theorem free_of_not_mem {F : Set β} {b : β} (h : ∀ c, S.mate b = some c → c ∉ F) :
    S.free F b = insert b F := by
  rw [free]
  split
  · rfl
  · rename_i c hc
    exact if_neg (h c hc)

/-- A block whose mate is free is joined with it. -/
theorem free_of_mem {F : Set β} {b c : β} (hbc : S.mate b = some c) (hc : c ∈ F) :
    S.free F b = S.free (F \ {c}) (S.join b) := by
  rw [free]
  split
  · rename_i hn
    simp [hn] at hbc
  · rename_i d hd
    obtain rfl : d = c := Option.some.inj (hd.symm.trans hbc)
    exact if_pos hc

/-- The block shares no point with any block of the set. -/
def Fresh (F : Set β) (b : β) : Prop := ∀ c ∈ F, Disjoint (S.foot b) (S.foot c)

/-- The blocks of the set share no points with one another. -/
def Separated (F : Set β) : Prop := F.PairwiseDisjoint S.foot

variable {S}

/-- What is fresh to a set is fresh to a part of it. -/
theorem Fresh.mono {F G : Set β} {b : β} (h : S.Fresh F b) (hs : G ⊆ F) : S.Fresh G b :=
  fun c hc => h c (hs hc)

/-- A part of a separated set is separated. -/
theorem Separated.mono {F G : Set β} (h : S.Separated F) (hs : G ⊆ F) : S.Separated G :=
  Set.PairwiseDisjoint.subset h hs

private theorem ne_of_disjoint {b c : β} (h : Disjoint (S.foot b) (S.foot c)) : b ≠ c := by
  rintro rfl
  exact (S.foot_nonempty b).ne_empty (disjoint_self.mp h)

/-- A fresh block is not in the set. -/
theorem Fresh.not_mem {F : Set β} {b : β} (h : S.Fresh F b) : b ∉ F :=
  fun hb => ne_of_disjoint (h b hb) rfl

/-- Each block of a separated set is fresh to the others. -/
theorem Separated.fresh {F : Set β} (h : S.Separated F) {c : β} (hc : c ∈ F) :
    S.Fresh (F \ {c}) c := fun _ hd => h hc hd.1 (Ne.symm hd.2)

/-- A fresh block can be added. -/
theorem Separated.insert {F : Set β} (h : S.Separated F) {b : β} (hb : S.Fresh F b) :
    S.Separated (insert b F) :=
  Set.PairwiseDisjoint.insert h fun c hc _ => hb c hc

/-- The joined block is fresh for what remains. -/
theorem Fresh.join {F : Set β} {b c : β} (hF : S.Separated F) (hb : S.Fresh F b)
    (hbc : S.mate b = some c) (hc : c ∈ F) : S.Fresh (F \ {c}) (S.join b) := by
  intro d hd
  rw [S.foot_join hbc, Set.disjoint_union_left]
  exact ⟨hb d hd.1, hF.fresh hc d hd⟩

/-- Freeing a fresh block keeps blocks separated, and a block that shares no
point with the set and the freed block stays fresh. -/
theorem free_spec {F : Set β} {b : β} (hF : S.Separated F) (hb : S.Fresh F b) :
    S.Separated (S.free F b) ∧
      ∀ x, S.Fresh F x → Disjoint (S.foot x) (S.foot b) → S.Fresh (S.free F b) x := by
  induction hn : S.rank b using Nat.strong_induction_on generalizing F b with
  | _ n ih =>
    by_cases hm : ∃ c, S.mate b = some c ∧ c ∈ F
    · obtain ⟨c, hbc, hc⟩ := hm
      rw [S.free_of_mem hbc hc]
      have hlt : S.rank (S.join b) < n := hn ▸ S.rank_join hbc
      obtain ⟨hsep, hfresh⟩ := ih _ hlt (hF.mono Set.sdiff_subset) (hb.join hF hbc hc) rfl
      refine ⟨hsep, fun x hx hxb => hfresh x (hx.mono Set.sdiff_subset) ?_⟩
      rw [S.foot_join hbc, Set.disjoint_union_right]
      exact ⟨hxb, hx c hc⟩
    · rw [S.free_of_not_mem fun c hbc hc => hm ⟨c, hbc, hc⟩]
      refine ⟨hF.insert hb, fun x hx hxb d hd => ?_⟩
      rcases Set.mem_insert_iff.mp hd with rfl | hd
      · exact hxb
      · exact hx d hd

/-- A free block whose mate's points are untouched survives the freeing of
another block, and may be set aside meanwhile. -/
theorem free_diff_singleton {F : Set β} {b x y : β} (hF : S.Separated F) (hb : S.Fresh F b)
    (hx : x ∈ F) (hxy : S.mate x = some y) (hy : S.Fresh F y)
    (hyb : Disjoint (S.foot y) (S.foot b)) :
    x ∈ S.free F b ∧ S.free F b \ {x} = S.free (F \ {x}) b := by
  induction hn : S.rank b using Nat.strong_induction_on generalizing F b with
  | _ n ih =>
    by_cases hm : ∃ c, S.mate b = some c ∧ c ∈ F
    · obtain ⟨c, hbc, hc⟩ := hm
      have hcx : c ≠ x := by
        rintro rfl
        have hby : b = y := Option.some.inj ((S.mate_symm hbc).symm.trans hxy)
        exact ne_of_disjoint hyb hby.symm
      have hlt : S.rank (S.join b) < n := hn ▸ S.rank_join hbc
      have hfoot : Disjoint (S.foot y) (S.foot (S.join b)) := by
        rw [S.foot_join hbc, Set.disjoint_union_right]
        exact ⟨hyb, hy c hc⟩
      have hx' : x ∈ F \ {c} := ⟨hx, Ne.symm hcx⟩
      obtain ⟨hmem, heq⟩ := ih _ hlt (hF.mono Set.sdiff_subset) (hb.join hF hbc hc) hx'
        (hy.mono Set.sdiff_subset) hfoot rfl
      have hc' : c ∈ F \ {x} := ⟨hc, hcx⟩
      rw [S.free_of_mem hbc hc, S.free_of_mem hbc hc']
      exact ⟨hmem, heq.trans (by rw [sdiff_right_comm])⟩
    · have hno : ∀ c, S.mate b = some c → c ∉ F := fun c hbc hc => hm ⟨c, hbc, hc⟩
      have hbx : b ≠ x := ne_of_disjoint (hb x hx)
      rw [S.free_of_not_mem hno, S.free_of_not_mem fun c hbc hc => hno c hbc hc.1]
      exact ⟨Set.mem_insert_of_mem _ hx, Set.insert_sdiff_of_notMem _ hbx⟩

/-- Two blocks may be freed in either order. -/
theorem free_comm {F : Set β} {b c : β} (hF : S.Separated F) (hb : S.Fresh F b)
    (hc : S.Fresh F c) (hbc : Disjoint (S.foot b) (S.foot c)) :
    S.free (S.free F b) c = S.free (S.free F c) b := by
  induction hn : S.rank b + S.rank c using Nat.strong_induction_on generalizing F b c with
  | _ n ih =>
    -- If one of the two has a free mate, that merge commutes with freeing the other.
    have hmerge : ∀ {b c d : β}, S.rank b + S.rank c = n → S.Fresh F b → S.Fresh F c →
        Disjoint (S.foot b) (S.foot c) → S.mate b = some d → d ∈ F →
        S.free (S.free F b) c = S.free (S.free F c) b := by
      intro b c d hn hb hc hbc hbd hd
      have hlt : S.rank (S.join b) + S.rank c < n := by
        have := S.rank_join hbd
        omega
      obtain ⟨hdc, heq⟩ := free_diff_singleton hF hc hd (S.mate_symm hbd) hb hbc
      have hfoot : Disjoint (S.foot (S.join b)) (S.foot c) := by
        rw [S.foot_join hbd, Set.disjoint_union_left]
        exact ⟨hbc, (hc d hd).symm⟩
      calc S.free (S.free F b) c
          = S.free (S.free (F \ {d}) (S.join b)) c := by rw [S.free_of_mem hbd hd]
        _ = S.free (S.free (F \ {d}) c) (S.join b) :=
            ih _ hlt (hF.mono Set.sdiff_subset) (hb.join hF hbd hd) (hc.mono Set.sdiff_subset)
              hfoot rfl
        _ = S.free (S.free F c \ {d}) (S.join b) := by rw [heq]
        _ = S.free (S.free F c) b := by rw [S.free_of_mem hbd hdc]
    by_cases hmb : ∃ d, S.mate b = some d ∧ d ∈ F
    · obtain ⟨d, hbd, hd⟩ := hmb
      exact hmerge hn hb hc hbc hbd hd
    by_cases hmc : ∃ d, S.mate c = some d ∧ d ∈ F
    · obtain ⟨d, hcd, hd⟩ := hmc
      exact (hmerge ((Nat.add_comm _ _).trans hn) hc hb hbc.symm hcd hd).symm
    have hnb : ∀ d, S.mate b = some d → d ∉ F := fun d h hd => hmb ⟨d, h, hd⟩
    have hnc : ∀ d, S.mate c = some d → d ∉ F := fun d h hd => hmc ⟨d, h, hd⟩
    rw [S.free_of_not_mem hnb, S.free_of_not_mem hnc]
    by_cases hmate : S.mate c = some b
    · -- The two are mates of each other: either order joins them.
      have hmate' := S.mate_symm hmate
      rw [S.free_of_mem hmate (Set.mem_insert b F), S.free_of_mem hmate' (Set.mem_insert c F),
        Set.insert_sdiff_self_of_notMem hb.not_mem, Set.insert_sdiff_self_of_notMem hc.not_mem,
        S.join_eq hmate]
    · have hmate' : S.mate b ≠ some c := fun h => hmate (S.mate_symm h)
      rw [S.free_of_not_mem, S.free_of_not_mem, Set.insert_comm]
      · rintro d hd (rfl | hd')
        · exact hmate' hd
        · exact hnb d hd hd'
      · rintro d hd (rfl | hd')
        · exact hmate hd
        · exact hnc d hd hd'

/-- Freeing fresh, mutually disjoint blocks in two orders gives the same set. -/
theorem foldl_free_perm {F : Set β} {bs cs : List β} (hp : bs.Perm cs) (hF : S.Separated F)
    (hb : ∀ b ∈ bs, S.Fresh F b)
    (hd : bs.Pairwise fun b c => Disjoint (S.foot b) (S.foot c)) :
    bs.foldl S.free F = cs.foldl S.free F := by
  induction hp generalizing F with
  | nil => rfl
  | cons b _ ih =>
    obtain ⟨hbd, hd'⟩ := List.pairwise_cons.mp hd
    obtain ⟨hsep, hfresh⟩ := free_spec hF (hb b List.mem_cons_self)
    exact ih hsep (fun c hc => hfresh c (hb c (List.mem_cons_of_mem _ hc)) (hbd c hc).symm) hd'
  | swap b c l =>
    obtain ⟨hcd, _⟩ := List.pairwise_cons.mp hd
    simp only [List.foldl_cons]
    rw [free_comm hF (hb c (by simp)) (hb b (by simp)) (hcd b (by simp))]
  | trans hp₁ _ ih₁ ih₂ =>
    have hsymm : ∀ {b c : β}, Disjoint (S.foot b) (S.foot c) → Disjoint (S.foot c) (S.foot b) :=
      fun h => h.symm
    rw [ih₁ hF hb hd]
    exact ih₂ hF (fun b hm => hb b (hp₁.mem_iff.mpr hm)) ((hp₁.pairwise_iff hsymm).mp hd)

end MergeSystem
