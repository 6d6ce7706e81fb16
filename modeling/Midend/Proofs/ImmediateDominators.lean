import Mathlib.Algebra.Group.Action.Defs
import Mathlib.Algebra.Order.BigOperators.Group.List
import Mathlib.Algebra.Order.Group.Nat
import Mathlib.Data.List.Induction
import Mathlib.Data.Nat.Cast.Basic
import Midend.Flow.Dominators
import Midend.Proofs.PathDominance

/-!
# Immediate dominators by iteration

The sweeps over the table of parents come to an end, and then the parent of a block is its immediate
dominator: a strict dominator that every other strict dominator of the block dominates.

## Shape of the argument

The parents of the blocks that have one make a tree below the entry, in which numbers grow downwards.
There `meet` finds the lowest common ancestor (`Rooted.above_meet`).  Two facts about a parent are local, so
that a change of another block does not touch them: whatever strictly dominates the block dominates the
parent, and the parent lies on the branch of the block, the way up along one fixed earlier predecessor of
each block.

That the sweeps end is the harder part, since the tree changes while it is being read.  What keeps a
parent from coming down again is that no common ancestor of the predecessors has a larger number than the
parent (`Sound.lowest`).  Behind the place that a sweep has reached, every parent is an ancestor of the
earlier predecessor; so the new parent, followed up the branch, is an ancestor of the old one
(`Ordered.above_of_branch`).  Hence ancestors are only ever lost, and the sum of the numbers of the parents
falls with each change.

`Meets`, `MeetsAll`, `Sweeps` and `Settles` are the same loops without bounds: two ways up are followed until
they are in one place, and the table is swept until a sweep changes nothing.  The numbers of the two blocks
bound the steps of the first, and the sum of the numbers of the parents bounds the sweeps, so the bounds are
never what ends the loops (`Rooted.meets`, `Sound.exists_settles`).

When a sweep changes nothing, the parent of a block is an ancestor of each of its predecessors, and a path
that avoids an ancestor of a block never gets below it (`Settled.dom_of_above`).
-/

namespace Midend

namespace DomTree

open Midend.Graph

/-! ## Ways up -/

/-- A block is met on the way up from another, where the way begins included. -/
inductive Above (f : BlockId → BlockId) (a : BlockId) : BlockId → Prop
  | refl : Above f a a
  | step {b : BlockId} : Above f a (f b) → Above f a b

namespace Above

variable {f f' : BlockId → BlockId} {number : BlockId → Nat} {n : Nat} {a b c : BlockId}

/-- What is above something above is above. -/
theorem trans (hab : Above f a b) (hbc : Above f b c) : Above f a c := by
  induction hbc with
  | refl => exact hab
  | step _ ih => exact .step ih

/-- What is above a block is the block, or above what it leads up to. -/
theorem eq_or_step (h : Above f a b) : a = b ∨ Above f a (f b) := by
  cases h with
  | refl => exact .inl rfl
  | step h => exact .inr h

/-- The way up ends where a step leads nowhere else. -/
theorem eq_of_fixed (hf : f b = b) (h : Above f a b) : a = b := by
  induction h with
  | refl => rfl
  | step _ ih => exact (ih (by rw [hf, hf])).trans hf

/-- Going up does not raise the number. -/
theorem number_le (hf : ∀ x, number (f x) ≤ number x) (h : Above f a b) : number a ≤ number b := by
  induction h with
  | refl => exact Nat.le_refl _
  | step _ ih => exact Nat.le_trans ih (hf _)

/-- A way up stays one if its steps become ways up. -/
theorem of_steps (hsteps : ∀ x, Above f' (f x) x) (h : Above f a b) : Above f' a b := by
  induction h with
  | refl => exact .refl
  | step _ ih => exact ih.trans (hsteps _)

/-- A way up is not touched by a change further down. -/
theorem frame (hf : ∀ x, number (f x) ≤ number x) (hsame : ∀ x, number x < n → f' x = f x)
    (h : Above f a b) (hb : number b < n) : Above f' a b := by
  induction h with
  | refl => exact .refl
  | @step b _ ih =>
    refine .step ?_
    rw [hsame b hb]
    exact ih (Nat.lt_of_le_of_lt (hf b) hb)

end Above

/-! ## Orders the iteration works for -/

/-- A list of the reachable blocks in which every block is numbered by its place, and `par` is an earlier
predecessor of every block but the entry. -/
structure Ordered (g : Graph) (rpo : List BlockId) (number : BlockId → Nat) (par : BlockId → BlockId) :
    Prop where
  mem_iff : ∀ b, b ∈ rpo ↔ g.Reachable b
  number_eq : ∀ b n, rpo[n]? = some b → number b = n
  par_entry : par g.entry = g.entry
  par_le : ∀ b, number (par b) ≤ number b
  par_lt : ∀ b, g.Reachable b → b ≠ g.entry → number (par b) < number b
  par_mem : ∀ b, g.Reachable b → b ≠ g.entry → par b ∈ g.preds b
  par_reachable : ∀ b, g.Reachable b → g.Reachable (par b)

variable {g : Graph} {rpo : List BlockId} {number : BlockId → Nat} {par : BlockId → BlockId}
  {parents : Table (Option BlockId)} {a b c d m n o p x : BlockId}

namespace Ordered

/-- A reachable block stands where its number says. -/
theorem getElem?_number (ho : Ordered g rpo number par) (hb : g.Reachable b) : rpo[number b]? = some b := by
  obtain ⟨n, hn⟩ := List.mem_iff_getElem?.1 ((ho.mem_iff b).2 hb)
  rw [ho.number_eq b n hn, hn]

/-- Numbers are places of the order. -/
theorem number_lt (ho : Ordered g rpo number par) (hb : g.Reachable b) : number b < rpo.length :=
  (List.getElem?_eq_some_iff.1 (ho.getElem?_number hb)).1

/-- Different blocks have different numbers. -/
theorem number_inj (ho : Ordered g rpo number par) (ha : g.Reachable a) (hb : g.Reachable b)
    (h : number a = number b) : a = b := by
  have hget := ho.getElem?_number ha
  rw [h, ho.getElem?_number hb] at hget
  exact (Option.some.inj hget).symm

/-- The entry comes first. -/
theorem entry_le (ho : Ordered g rpo number par) (hb : g.Reachable b) : number g.entry ≤ number b := by
  induction hm : number b using Nat.strongRecOn generalizing b with
  | ind m ih =>
    by_cases hne : b = g.entry
    · exact Nat.le_of_eq (hm ▸ congrArg number hne.symm)
    · have hlt := ho.par_lt b hb hne
      have hle := ih _ (by omega) (ho.par_reachable b hb) rfl
      omega

/-- What comes earlier in the order has a smaller number. -/
theorem number_lt_of_mem (ho : Ordered g rpo number par) {done rest : List BlockId}
    (hsplit : rpo = done ++ b :: rest) (hx : x ∈ done) : number x < number b := by
  have hb : number b = done.length := ho.number_eq b _ (by rw [hsplit]; simp)
  obtain ⟨k, hk⟩ := List.mem_iff_getElem?.1 hx
  have hlt := (List.getElem?_eq_some_iff.1 hk).1
  have hnumber : number x = k := ho.number_eq x k (by rw [hsplit, List.getElem?_append_left hlt, hk])
  omega

/-- What has a smaller number has come earlier. -/
theorem mem_of_number_lt (ho : Ordered g rpo number par) {done rest : List BlockId}
    (hsplit : rpo = done ++ b :: rest) (hx : g.Reachable x) (hlt : number x < number b) : x ∈ done := by
  have hb : number b = done.length := ho.number_eq b _ (by rw [hsplit]; simp)
  have hget := ho.getElem?_number hx
  rw [hsplit, List.getElem?_append_left (by omega)] at hget
  exact List.mem_of_getElem? hget

end Ordered

/-! ## Trees of parents -/

/-- Has a block got a parent? -/
def Known (parents : Table (Option BlockId)) (b : BlockId) : Prop := (parents.get b.index).isSome = true

/-- A known block leads up to its entry in the table. -/
theorem get_eq_up (h : Known parents b) : parents.get b.index = some (up parents b) := by
  obtain ⟨a, ha⟩ := Option.isSome_iff_exists.1 h
  rw [up, ha, Option.getD_some]

/-- A block that is not known leads up to itself. -/
theorem up_eq_self (h : ¬ Known parents b) : up parents b = b := by
  rw [up, Option.not_isSome_iff_eq_none.1 h, Option.getD_none]

/-- Setting an entry makes its block known. -/
theorem known_set : Known (parents.set b.index (some n)) x ↔ x = b ∨ Known parents x := by
  simp only [Known, Table.get_set, BlockId.index_inj]
  by_cases hxb : x = b <;> simp [hxb]

/-- Setting an entry changes where its block leads up to. -/
theorem up_set : up (parents.set b.index (some n)) x = if x = b then n else up parents x := by
  simp only [up, Table.get_set, BlockId.index_inj]
  by_cases hxb : x = b <;> simp [hxb]

/-- The blocks with parents make a tree below the entry, which is its own parent. -/
structure Rooted (g : Graph) (number : BlockId → Nat) (parents : Table (Option BlockId)) : Prop where
  entry : parents.get g.entry.index = some g.entry
  reachable : ∀ b, Known parents b → g.Reachable b
  known_up : ∀ b, Known parents b → Known parents (up parents b)
  up_lt : ∀ b, Known parents b → b ≠ g.entry → number (up parents b) < number b

namespace Rooted

/-- The entry is known. -/
theorem known_entry (hr : Rooted g number parents) : Known parents g.entry := by
  rw [Known, hr.entry]
  rfl

/-- The entry leads up to itself. -/
theorem up_entry (hr : Rooted g number parents) : up parents g.entry = g.entry := by
  rw [up, hr.entry, Option.getD_some]

/-- Going up one step does not raise the number. -/
theorem up_le (hr : Rooted g number parents) (b : BlockId) : number (up parents b) ≤ number b := by
  by_cases hb : Known parents b
  · by_cases hne : b = g.entry
    · rw [hne, hr.up_entry]
    · exact Nat.le_of_lt (hr.up_lt b hb hne)
  · rw [up_eq_self hb]

/-- Going up does not raise the number. -/
theorem number_le (hr : Rooted g number parents) (h : Above (up parents) a b) : number a ≤ number b :=
  h.number_le hr.up_le

/-- The ancestors of a block are not touched when a block with a larger number changes. -/
theorem above_set (hr : Rooted g number parents) (hx : number x < number b) (h : Above (up parents) c x) :
    Above (up (parents.set b.index (some n))) c x := by
  refine h.frame hr.up_le (fun y hy => ?_) hx
  rw [up_set, if_neg]
  rintro rfl
  exact Nat.lt_irrefl _ hy

/-- A block with a larger number than another is not the entry, so it can go up. -/
theorem up_lt_of_lt (hr : Rooted g number parents) (ho : Ordered g rpo number par) (ha : Known parents a)
    (hb : Known parents b) (hlt : number a < number b) : number (up parents b) < number b := by
  refine hr.up_lt b hb ?_
  rintro rfl
  exact Nat.not_lt.2 (ho.entry_le (hr.reachable a ha)) hlt

/-- Of two known blocks that differ, one has the smaller number. -/
theorem number_lt_of_not_lt (hr : Rooted g number parents) (ho : Ordered g rpo number par)
    (ha : Known parents a) (hb : Known parents b) (hab : a ≠ b) (hnlt : ¬ number b < number a) :
    number a < number b :=
  Nat.lt_of_le_of_ne (Nat.not_lt.1 hnlt) fun heq =>
    hab (ho.number_inj (hr.reachable a ha) (hr.reachable b hb) heq)

end Rooted

/-! ## Meeting places -/

/-- Where two ways up meet, without a bound on the steps: the block with the larger number goes up until both
are the same. -/
inductive Meets (number : BlockId → Nat) (parents : Table (Option BlockId)) : BlockId → BlockId → BlockId → Prop
  | same {a : BlockId} : Meets number parents a a a
  | left {a b m : BlockId} : number b < number a → Meets number parents (up parents a) b m →
    Meets number parents a b m
  | right {a b m : BlockId} : number a < number b → Meets number parents a (up parents b) m →
    Meets number parents a b m

/-- Where the ways up from those blocks meet that have a parent, without a bound: one block after the other
is met with what was found before. -/
inductive MeetsAll (number : BlockId → Nat) (parents : Table (Option BlockId)) :
    List BlockId → Option BlockId → Option BlockId → Prop
  | done {found : Option BlockId} : MeetsAll number parents [] found found
  | skip {b : BlockId} {bs : List BlockId} {found m : Option BlockId} : ¬ Known parents b →
    MeetsAll number parents bs found m → MeetsAll number parents (b :: bs) found m
  | first {b : BlockId} {bs : List BlockId} {m : Option BlockId} : Known parents b →
    MeetsAll number parents bs (some b) m → MeetsAll number parents (b :: bs) none m
  | meet {a b x : BlockId} {bs : List BlockId} {m : Option BlockId} : Known parents b →
    Meets number parents b a x → MeetsAll number parents bs (some x) m →
    MeetsAll number parents (b :: bs) (some a) m

namespace Rooted

/-- The two ways up meet before the steps run out. -/
theorem meets_meetWithin (hr : Rooted g number parents) (ho : Ordered g rpo number par) {steps : Nat}
    (ha : Known parents a) (hb : Known parents b) (hsteps : number a + number b ≤ steps) :
    Meets number parents a b (meetWithin number parents steps a b) := by
  induction steps generalizing a b with
  | zero =>
    obtain rfl := ho.number_inj (hr.reachable a ha) (hr.reachable b hb) (by omega)
    exact .same
  | succ steps ih =>
    rw [meetWithin]
    split
    · next hab =>
      subst hab
      exact .same
    split
    · next hlt =>
      have hup := hr.up_lt_of_lt ho hb ha hlt
      exact .left hlt (ih (hr.known_up a ha) hb (by omega))
    · next hab hnlt =>
      have hlt := hr.number_lt_of_not_lt ho ha hb hab hnlt
      have hup := hr.up_lt_of_lt ho ha hb hlt
      exact .right hlt (ih ha (hr.known_up b hb) (by omega))

/-- A meeting place is the end of the two ways up. -/
theorem meets (hr : Rooted g number parents) (ho : Ordered g rpo number par) (ha : Known parents a)
    (hb : Known parents b) : Meets number parents a b (meet number parents a b) :=
  hr.meets_meetWithin ho ha hb (Nat.le_refl _)

/-- What is above a place where two ways up meet is what is above both blocks. -/
theorem above_of_meets (hr : Rooted g number parents) (h : Meets number parents a b m) (ha : Known parents a)
    (hb : Known parents b) : Known parents m ∧
      ∀ c, Above (up parents) c m ↔ Above (up parents) c a ∧ Above (up parents) c b := by
  -- nothing is lost by going up from the larger number, as that block is not above the other
  have hskip : ∀ {x y c}, number x < number y → Above (up parents) c x →
      (Above (up parents) c (up parents y) ↔ Above (up parents) c y) := by
    intro x y c hlt hcx
    refine ⟨.step, fun hcy => hcy.eq_or_step.resolve_left ?_⟩
    rintro rfl
    exact Nat.not_lt.2 (hr.number_le hcx) hlt
  induction h with
  | same => exact ⟨ha, fun c => (and_self_iff).symm⟩
  | left hlt _ ih =>
    obtain ⟨hknown, habove⟩ := ih (hr.known_up _ ha) hb
    exact ⟨hknown, fun c => (habove c).trans (and_congr_left fun hcb => hskip hlt hcb)⟩
  | right hlt _ ih =>
    obtain ⟨hknown, habove⟩ := ih ha (hr.known_up _ hb)
    exact ⟨hknown, fun c => (habove c).trans (and_congr_right fun hca => hskip hlt hca)⟩

/-- What is above the place that is computed is what is above both blocks. -/
theorem above_meet (hr : Rooted g number parents) (ho : Ordered g rpo number par) (ha : Known parents a)
    (hb : Known parents b) : Known parents (meet number parents a b) ∧
      ∀ c, Above (up parents) c (meet number parents a b) ↔ Above (up parents) c a ∧ Above (up parents) c b :=
  hr.above_of_meets (hr.meets ho ha hb) ha hb

/-- All the meetings that `meetAll` asks for come to an end. -/
theorem meetsAll (hr : Rooted g number parents) (ho : Ordered g rpo number par) (bs : List BlockId) :
    MeetsAll number parents bs none (meetAll number parents bs) := by
  rw [meetAll]
  have hnone : ∀ x, (none : Option BlockId) = some x → Known parents x := fun x hx => by cases hx
  generalize (none : Option BlockId) = found at hnone
  induction bs generalizing found with
  | nil => exact .done
  | cons b bs ih =>
    rw [List.foldl_cons]
    by_cases hb : (parents.get b.index).isSome = true
    · rw [if_pos hb]
      cases found with
      | none =>
        refine .first hb (ih _ fun x hx => ?_)
        obtain rfl := Option.some.inj hx
        exact hb
      | some a =>
        have ha := hnone a rfl
        refine .meet hb (hr.meets ho hb ha) (ih _ fun x hx => ?_)
        obtain rfl := Option.some.inj hx
        exact (hr.above_meet ho hb ha).1
    · rw [if_neg hb]
      exact .skip hb (ih _ hnone)

end Rooted

/-- The answer of `meetAll`: it is there if one of the blocks has a parent, and what is above it is what is
above all blocks that have one. -/
def IsMeet (parents : Table (Option BlockId)) (bs : List BlockId) : Option BlockId → Prop
  | none => ∀ b ∈ bs, ¬ Known parents b
  | some m => Known parents m ∧
      ∀ c, Above (up parents) c m ↔ ∀ b ∈ bs, Known parents b → Above (up parents) c b

/-- The meet of several blocks is the lowest block above all that are known. -/
theorem Rooted.isMeet_meetAll (hr : Rooted g number parents) (ho : Ordered g rpo number par)
    (bs : List BlockId) : IsMeet parents bs (meetAll number parents bs) := by
  induction bs using List.reverseRecOn with
  | nil => simp [IsMeet, meetAll]
  | append_singleton bs b ih =>
    rw [meetAll, List.foldl_append, List.foldl_cons, List.foldl_nil, ← meetAll]
    generalize meetAll number parents bs = found at ih
    split
    · next hb =>
      change Known parents b at hb
      cases found with
      | none =>
        refine ⟨hb, fun c => ⟨fun hc y hy hk => ?_, fun h => h b (by simp) hb⟩⟩
        rcases List.mem_append.1 hy with hy | hy
        · exact absurd hk (ih y hy)
        · exact List.mem_singleton.1 hy ▸ hc
      | some m =>
        obtain ⟨hknown, habove⟩ := hr.above_meet ho hb ih.1
        refine ⟨hknown, fun c => ?_⟩
        rw [Option.elim_some, habove, ih.2]
        simp only [List.mem_append, List.mem_singleton, or_imp, forall_and, forall_eq, hb, forall_const]
        exact and_comm
    · next hb =>
      change ¬ Known parents b at hb
      cases found with
      | none =>
        intro y hy
        rcases List.mem_append.1 hy with hy | hy
        · exact ih y hy
        · exact List.mem_singleton.1 hy ▸ hb
      | some m =>
        refine ⟨ih.1, fun c => ?_⟩
        simp only [ih.2, List.mem_append, List.mem_singleton, or_imp, forall_and, forall_eq, hb,
          false_implies, and_true]

/-! ## What a change keeps -/

/-- What holds of the parents at every point of a sweep. -/
structure Sound (g : Graph) (number : BlockId → Nat) (par : BlockId → BlockId)
    (parents : Table (Option BlockId)) : Prop extends Rooted g number parents where
  /-- What strictly dominates a block dominates its parent. -/
  dom : ∀ b d, Known parents b → g.SDom d b → g.Dom d (up parents b)
  /-- A parent is on the branch of its block. -/
  branch : ∀ b, Known parents b → Above par (up parents b) (par b)
  /-- No common ancestor of the predecessors is lower than the parent. -/
  lowest : ∀ b c, Known parents b → b ≠ g.entry →
    (∀ p ∈ g.preds b, Known parents p → Above (up parents) c p) → number c ≤ number (up parents b)

/-- The place of a block has been passed by a sweep: it has a parent, which is above the earlier
predecessor. -/
def Passed (par : BlockId → BlockId) (parents : Table (Option BlockId)) (b : BlockId) : Prop :=
  Known parents b ∧ Above (up parents) (up parents b) (par b)

namespace Sound

/-- Dominators are ancestors. -/
theorem above_of_dom (hs : Sound g number par parents) (hp : Known parents p) (hd : g.Dom d p) :
    Above (up parents) d p := by
  induction hm : number p using Nat.strongRecOn generalizing p with
  | ind m ih =>
    by_cases hdp : d = p
    · exact hdp ▸ .refl
    have hne : p ≠ g.entry := by
      rintro rfl
      exact hdp hd.eq_entry
    exact .step (ih _ (hm ▸ hs.up_lt p hp hne) (hs.known_up p hp) (hs.dom p d hp ⟨hd, hdp⟩) rfl)

/-- On the way up to a dominator, every block is dominated by it. -/
theorem dom_of_above (hs : Sound g number par parents) (hp : Known parents p) (hd : g.Dom d p)
    (hnp : Above (up parents) n p) (hdn : Above (up parents) d n) : g.Dom d n := by
  induction hnp with
  | refl => exact hd
  | @step p hnp ih =>
    by_cases hne : p = g.entry
    · have hup : up parents p = p := by rw [hne, hs.up_entry]
      rw [hup] at ih
      exact ih hp hd
    · have hdp : d ≠ p := by
        rintro rfl
        have hlt := hs.up_lt d hp hne
        have hle := hs.number_le hnp
        have hle' := hs.number_le hdn
        omega
      exact ih (hs.known_up p hp) (hs.dom p d hp ⟨hd, hdp⟩)

end Sound

/-- Going up a branch whose blocks have been passed: what is above its lower end, and not lower than a block
on it, is above this block. -/
theorem Ordered.above_of_branch (ho : Ordered g rpo number par) {k : Nat}
    (hpassed : ∀ y, g.Reachable y → number y < k → Passed par parents y) (hx : g.Reachable x)
    (hxk : number x < k) (ho' : Above par o x) (hnx : Above (up parents) n x)
    (hle : number n ≤ number o) : Above (up parents) n o := by
  induction ho' with
  | refl => exact hnx
  | @step x ho' ih =>
    by_cases hne : x = g.entry
    · have hpar : par x = x := by rw [hne, ho.par_entry]
      rw [hpar] at ih
      exact ih hx hxk hnx
    · have hlt := ho.par_lt x hx hne
      have hox := ho'.number_le ho.par_le
      refine ih (ho.par_reachable x hx) (by omega) ?_
      rcases hnx.eq_or_step with rfl | hnx
      · omega
      · exact hnx.trans (hpassed x hx hxk).2

/-- The parent that the predecessors of a block call for. -/
structure Candidate (g : Graph) (number : BlockId → Nat) (par : BlockId → BlockId)
    (parents : Table (Option BlockId)) (b n : BlockId) : Prop where
  known : Known parents n
  above_iff : ∀ c, Above (up parents) c n ↔ ∀ p ∈ g.preds b, Known parents p → Above (up parents) c p
  above_par : Above (up parents) n (par b)
  lt : number n < number b

section

variable (hg : g.Consistent) (ho : Ordered g rpo number par) (hs : Sound g number par parents)
  (hb : g.Reachable b) (hne : b ≠ g.entry)
  (hpassed : ∀ y, g.Reachable y → number y < number b → Passed par parents y)
include ho hs hb hne hpassed

/-- When a sweep comes to a block, an earlier predecessor has a parent. -/
theorem exists_candidate : ∃ n, meetAll number parents (g.preds b) = some n ∧
    Candidate g number par parents b n := by
  have hpar := (hpassed (par b) (ho.par_reachable b hb) (ho.par_lt b hb hne)).1
  have hmeet := hs.isMeet_meetAll ho (g.preds b)
  cases hn : meetAll number parents (g.preds b) with
  | none =>
    rw [hn] at hmeet
    exact absurd hpar (hmeet _ (ho.par_mem b hb hne))
  | some n =>
    rw [hn] at hmeet
    have habove : Above (up parents) n (par b) := (hmeet.2 n).1 .refl _ (ho.par_mem b hb hne) hpar
    exact ⟨n, rfl, hmeet.1, hmeet.2, habove, Nat.lt_of_le_of_lt (hs.number_le habove) (ho.par_lt b hb hne)⟩

include hg in
/-- The new parent keeps the strict dominators of the block. -/
theorem Candidate.dom (hn : Candidate g number par parents b n) (hd : g.SDom d b) : g.Dom d n := by
  have hdom : ∀ p ∈ g.preds b, Known parents p → g.Dom d p := fun p hp hk =>
    hd.1.of_succ hd.2 (hs.reachable p hk) (hg.mem_preds_iff.1 hp)
  have hpar := (hpassed (par b) (ho.par_reachable b hb) (ho.par_lt b hb hne)).1
  refine hs.dom_of_above hpar (hdom _ (ho.par_mem b hb hne) hpar) hn.above_par ?_
  exact (hn.above_iff d).2 fun p hp hk => hs.above_of_dom hk (hdom p hp hk)

/-- The new parent is an ancestor of the old one. -/
theorem Candidate.above_old (hn : Candidate g number par parents b n) (hk : Known parents b) :
    Above (up parents) n (up parents b) :=
  ho.above_of_branch hpassed (ho.par_reachable b hb) (ho.par_lt b hb hne) (hs.branch b hk) hn.above_par
    (hs.lowest b n hk hne ((hn.above_iff n).1 .refl))

/-- Ancestors of blocks that had a parent are only lost. -/
theorem Candidate.above_of_set (hn : Candidate g number par parents b n) (hx : Known parents x)
    (h : Above (up (parents.set b.index (some n))) c x) : Above (up parents) c x := by
  induction h with
  | refl => exact .refl
  | @step x _ ih =>
    rw [up_set] at ih
    by_cases hxb : x = b
    · subst hxb
      rw [if_pos rfl] at ih
      exact .step ((ih hn.known).trans (hn.above_old ho hs hb hne hpassed hx))
    · rw [if_neg hxb] at ih
      exact .step (ih (hs.known_up x hx))

/-- The blocks passed before are still passed after the change, and so is the changed block. -/
theorem Candidate.passed_set (hn : Candidate g number par parents b n) (hx : g.Reachable x)
    (hxb : x = b ∨ number x < number b) : Passed par (parents.set b.index (some n)) x := by
  have hlt := ho.par_lt b hb hne
  rcases hxb with rfl | hxb
  · refine ⟨known_set.2 (.inl rfl), ?_⟩
    rw [up_set, if_pos rfl]
    exact hs.above_set hlt hn.above_par
  · have hle := ho.par_le x
    refine ⟨known_set.2 (.inr (hpassed x hx hxb).1), ?_⟩
    rw [up_set, if_neg (by rintro rfl; omega)]
    exact hs.above_set (by omega) (hpassed x hx hxb).2

include hg in
/-- A change keeps all that holds of the parents. -/
theorem Candidate.sound_set (hn : Candidate g number par parents b n) :
    Sound g number par (parents.set b.index (some n)) where
  entry := by rw [Table.get_set_ne _ _ fun h => hne (BlockId.index_inj.1 h).symm, hs.entry]
  reachable x hx := (known_set.1 hx).elim (· ▸ hb) (hs.reachable x)
  known_up x hx := by
    rw [up_set, known_set]
    split
    · exact .inr hn.known
    · next hxb => exact .inr (hs.known_up x ((known_set.1 hx).resolve_left hxb))
  up_lt x hx hxe := by
    rw [up_set]
    split
    · next hxb => exact hxb ▸ hn.lt
    · next hxb => exact hs.up_lt x ((known_set.1 hx).resolve_left hxb) hxe
  dom x d hx hd := by
    rw [up_set]
    split
    · next hxb => exact hn.dom hg ho hs hb hne hpassed (hxb ▸ hd)
    · next hxb => exact hs.dom x d ((known_set.1 hx).resolve_left hxb) hd
  branch x hx := by
    rw [up_set]
    split
    · next hxb =>
      subst hxb
      refine hn.above_par.of_steps fun y => ?_
      by_cases hy : Known parents y
      · exact .step (hs.branch y hy)
      · rw [up_eq_self hy]
        exact .refl
    · next hxb => exact hs.branch x ((known_set.1 hx).resolve_left hxb)
  lowest x c hx hxe hc := by
    have hold : ∀ p ∈ g.preds x, Known parents p → Above (up parents) c p := fun p hp hk =>
      hn.above_of_set ho hs hb hne hpassed hk (hc p hp (known_set.2 (.inr hk)))
    rw [up_set]
    split
    · next hxb =>
      subst hxb
      exact hs.number_le ((hn.above_iff c).2 hold)
    · next hxb => exact hs.lowest x c ((known_set.1 hx).resolve_left hxb) hxe hold

end

/-! ## The sweeps come to an end -/

/-- The sum of the numbers of the parents, where having none counts more than any number. -/
def height (rpo : List BlockId) (number : BlockId → Nat) (parents : Table (Option BlockId)) : Nat :=
  (rpo.map fun b => (parents.get b.index).elim rpo.length number).sum

/-- A change brings the sum down. -/
theorem Candidate.height_lt (hn : Candidate g number par parents b n) (ho : Ordered g rpo number par)
    (hs : Sound g number par parents) (hb : g.Reachable b) (hne : b ≠ g.entry)
    (hnew : parents.get b.index ≠ some n) :
    height rpo number (parents.set b.index (some n)) < height rpo number parents := by
  have hlt : number n < (parents.get b.index).elim rpo.length number := by
    by_cases hk : Known parents b
    · rw [get_eq_up hk] at hnew ⊢
      refine Nat.lt_of_le_of_ne (hs.lowest b n hk hne ((hn.above_iff n).1 .refl)) fun heq => ?_
      exact hnew (congrArg some (ho.number_inj (hs.reachable _ hn.known)
        (hs.reachable _ (hs.known_up b hk)) heq).symm)
    · rw [Option.not_isSome_iff_eq_none.1 hk]
      exact ho.number_lt (hs.reachable n hn.known)
  have hget : ∀ x : BlockId, ((parents.set b.index (some n)).get x.index).elim rpo.length number =
      if x = b then number n else (parents.get x.index).elim rpo.length number := by
    intro x
    simp only [Table.get_set, BlockId.index_inj]
    split <;> rfl
  refine List.sum_lt_sum _ _ (fun x _ => ?_) ⟨b, (ho.mem_iff b).2 hb, ?_⟩
  · rw [hget]
    split
    · next hxb => exact hxb ▸ Nat.le_of_lt hlt
    · exact Nat.le_refl _
  · rw [hget, if_pos rfl]
    exact hlt

/-- What has become of the parents when a sweep has passed some blocks. -/
structure Sweeping (g : Graph) (rpo : List BlockId) (number : BlockId → Nat) (par : BlockId → BlockId)
    (before : Table (Option BlockId)) (done : List BlockId) (s : Table (Option BlockId) × Bool) : Prop where
  sound : Sound g number par s.1
  passed : ∀ x ∈ done, Passed par s.1 x
  same : s.2 = false → s.1 = before ∧
    ∀ x ∈ done, x ≠ g.entry → meetAll number before (g.preds x) = before.get x.index
  lower : s.2 = true → height rpo number s.1 < height rpo number before

/-- Updating one block carries the invariant of a sweep on. -/
theorem Sweeping.update {before : Table (Option BlockId)} {done rest : List BlockId}
    {s : Table (Option BlockId) × Bool} (h : Sweeping g rpo number par before done s) (hg : g.Consistent)
    (ho : Ordered g rpo number par) (hsplit : rpo = done ++ b :: rest) :
    Sweeping g rpo number par before (done ++ [b]) (update number g.entry g.preds s b) := by
  have hb : g.Reachable b := (ho.mem_iff b).1 (by simp [hsplit])
  have hpassed : ∀ y, g.Reachable y → number y < number b → Passed par s.1 y := fun y hy hlt =>
    h.passed y (ho.mem_of_number_lt hsplit hy hlt)
  -- all there is to show when the table stays as it is
  have hstay : Passed par s.1 b → (b ≠ g.entry → meetAll number s.1 (g.preds b) = s.1.get b.index) →
      Sweeping g rpo number par before (done ++ [b]) s := by
    intro hpb hmeet
    refine ⟨h.sound, fun x hx => ?_, fun hflag => ⟨(h.same hflag).1, fun x hx hxe => ?_⟩, h.lower⟩
    · rcases List.mem_append.1 hx with hx | hx
      · exact h.passed x hx
      · exact List.mem_singleton.1 hx ▸ hpb
    · rcases List.mem_append.1 hx with hx | hx
      · exact (h.same hflag).2 x hx hxe
      · obtain rfl := List.mem_singleton.1 hx
        exact (h.same hflag).1 ▸ hmeet hxe
  rw [DomTree.update]
  split
  · next hbe =>
    subst hbe
    refine hstay ⟨h.sound.known_entry, ?_⟩ fun hne => absurd rfl hne
    rw [h.sound.up_entry, ho.par_entry]
    exact .refl
  · next hbe =>
    obtain ⟨n, hmeet, hn⟩ := exists_candidate ho h.sound hb hbe hpassed
    simp only [hmeet]
    split
    · next hold =>
      have hk : Known s.1 b := Option.isSome_iff_exists.2 ⟨n, hold⟩
      have hup : up s.1 b = n := Option.some.inj ((get_eq_up hk).symm.trans hold)
      exact hstay ⟨hk, hup ▸ hn.above_par⟩ fun _ => hmeet.trans hold.symm
    · next hnew =>
      have hlt := hn.height_lt ho h.sound hb hbe hnew
      refine ⟨hn.sound_set hg ho h.sound hb hbe hpassed, fun x hx => ?_, fun hflag => ?_, fun _ => ?_⟩
      · rcases List.mem_append.1 hx with hx | hx
        · exact hn.passed_set ho h.sound hb hbe hpassed (h.sound.reachable x (h.passed x hx).1)
            (.inr (ho.number_lt_of_mem hsplit hx))
        · obtain rfl := List.mem_singleton.1 hx
          exact hn.passed_set ho h.sound hb hbe hpassed hb (.inl rfl)
      · cases hflag
      · cases hflag : s.2 with
        | false => exact (h.same hflag).1 ▸ hlt
        | true => exact Nat.lt_trans hlt (h.lower hflag)

/-- Where a sweep begins. -/
theorem sweeping_start (hs : Sound g number par parents) :
    Sweeping g rpo number par parents [] (parents, false) :=
  ⟨hs, by simp, fun _ => ⟨rfl, by simp⟩, fun h => by cases h⟩

/-- A whole sweep. -/
theorem Sound.sweeping (hs : Sound g number par parents) (hg : g.Consistent)
    (ho : Ordered g rpo number par) :
    Sweeping g rpo number par parents rpo (sweep number g.entry g.preds rpo parents) := by
  have hfold : ∀ rest done s, rpo = done ++ rest → Sweeping g rpo number par parents done s →
      Sweeping g rpo number par parents rpo (rest.foldl (update number g.entry g.preds) s) := by
    intro rest
    induction rest with
    | nil =>
      intro done s hsplit h
      rw [List.append_nil] at hsplit
      exact hsplit ▸ h
    | cons b rest ih =>
      intro done s hsplit h
      exact ih (done ++ [b]) _ (by rw [hsplit]; simp) (h.update hg ho hsplit)
  exact hfold rpo [] (parents, false) rfl (sweeping_start hs)

/-- A sweep over some blocks, without a bound on the meetings: a block keeps its parent if its predecessors call
for no other one, and else gets the one they call for. -/
inductive Sweeps (number : BlockId → Nat) (entry : BlockId) (preds : BlockId → List BlockId) :
    List BlockId → Table (Option BlockId) × Bool → Table (Option BlockId) × Bool → Prop
  | done {s : Table (Option BlockId) × Bool} : Sweeps number entry preds [] s s
  | entry {bs : List BlockId} {s s' : Table (Option BlockId) × Bool} : Sweeps number entry preds bs s s' →
    Sweeps number entry preds (entry :: bs) s s'
  | keep {b : BlockId} {bs : List BlockId} {m : Option BlockId} {s s' : Table (Option BlockId) × Bool} :
    b ≠ entry → MeetsAll number s.1 (preds b) none m → (∀ a, m = some a → s.1.get b.index = some a) →
    Sweeps number entry preds bs s s' → Sweeps number entry preds (b :: bs) s s'
  | change {a b : BlockId} {bs : List BlockId} {s s' : Table (Option BlockId) × Bool} :
    b ≠ entry → MeetsAll number s.1 (preds b) none (some a) → s.1.get b.index ≠ some a →
    Sweeps number entry preds bs (s.1.set b.index (some a), true) s' →
    Sweeps number entry preds (b :: bs) s s'

/-- Sweeps one after the other until one reports no change, without a bound on them: how many there are, the
table before the first and the table after the last. -/
inductive Settles (number : BlockId → Nat) (entry : BlockId) (preds : BlockId → List BlockId)
    (rpo : List BlockId) : Nat → Table (Option BlockId) → Table (Option BlockId) → Prop
  | last {parents parents' : Table (Option BlockId)} :
    Sweeps number entry preds rpo (parents, false) (parents', false) →
    Settles number entry preds rpo 1 parents parents'
  | again {k : Nat} {parents parents' parents'' : Table (Option BlockId)} :
    Sweeps number entry preds rpo (parents, false) (parents', true) →
    Settles number entry preds rpo k parents' parents'' →
    Settles number entry preds rpo (k + 1) parents parents''

/-- All that is left of a sweep comes to an end. -/
theorem Sweeping.sweeps {before : Table (Option BlockId)} {done rest : List BlockId}
    {s : Table (Option BlockId) × Bool} (h : Sweeping g rpo number par before done s) (hg : g.Consistent)
    (ho : Ordered g rpo number par) (hsplit : rpo = done ++ rest) :
    Sweeps number g.entry g.preds rest s (rest.foldl (DomTree.update number g.entry g.preds) s) := by
  induction rest generalizing done s with
  | nil => exact .done
  | cons b rest ih =>
    have hrest := ih (h.update hg ho hsplit) (by rw [hsplit]; simp)
    have hmeets := h.sound.meetsAll ho (g.preds b)
    rw [List.foldl_cons]
    rw [DomTree.update] at hrest ⊢
    split at hrest
    · next hbe =>
      subst hbe
      rw [if_pos rfl]
      exact .entry hrest
    · next hbe =>
      rw [if_neg hbe]
      cases hm : meetAll number s.1 (g.preds b) with
      | none =>
        simp only [hm] at hrest hmeets ⊢
        exact .keep hbe hmeets (fun a ha => by cases ha) hrest
      | some a =>
        simp only [hm] at hrest hmeets ⊢
        split at hrest
        · next hold =>
          rw [if_pos hold]
          exact .keep hbe hmeets (fun a' ha' => Option.some.inj ha' ▸ hold) hrest
        · next hnew =>
          rw [if_neg hnew]
          exact .change hbe hmeets hnew hrest

/-- Parents that a sweep does not change: every reachable block has one, above all its reachable
predecessors. -/
structure Settled (g : Graph) (number : BlockId → Nat) (par : BlockId → BlockId)
    (parents : Table (Option BlockId)) : Prop extends Sound g number par parents where
  known : ∀ b, g.Reachable b → Known parents b
  above_pred : ∀ b p, g.Reachable b → b ≠ g.entry → p ∈ g.preds b → g.Reachable p →
    Above (up parents) (up parents b) p

/-- The sweeps end with parents that a further sweep does not change. -/
theorem Sound.settled_settle (hs : Sound g number par parents) (hg : g.Consistent)
    (ho : Ordered g rpo number par) {sweeps : Nat} (hsweeps : height rpo number parents < sweeps) :
    Settled g number par (settle number g.entry g.preds rpo sweeps parents) := by
  induction sweeps generalizing parents with
  | zero => omega
  | succ sweeps ih =>
    have h := hs.sweeping hg ho
    rw [settle]
    cases hflag : (sweep number g.entry g.preds rpo parents).2 with
    | true =>
      have hlt := h.lower hflag
      exact ih h.sound (by omega)
    | false =>
      obtain ⟨heq, hmeet⟩ := h.same hflag
      have hknown : ∀ b, g.Reachable b → Known parents b := fun b hb =>
        heq ▸ (h.passed b ((ho.mem_iff b).2 hb)).1
      simp only [Bool.false_eq_true, if_false, heq]
      refine ⟨hs, hknown, fun b p hb hne hp hreach => ?_⟩
      have hspec := hs.isMeet_meetAll ho (g.preds b)
      rw [hmeet b ((ho.mem_iff b).2 hb) hne, get_eq_up (hknown b hb)] at hspec
      exact (hspec.2 _).1 .refl p hp (hknown p hreach)

/-- A sweep reports no change before the bound on the sweeps is reached. -/
theorem Sound.exists_settles (hs : Sound g number par parents) (hg : g.Consistent)
    (ho : Ordered g rpo number par) {sweeps : Nat} (hsweeps : height rpo number parents < sweeps) :
    ∃ k ≤ sweeps, Settles number g.entry g.preds rpo k parents
      (settle number g.entry g.preds rpo sweeps parents) := by
  induction sweeps generalizing parents with
  | zero => omega
  | succ sweeps ih =>
    have h := hs.sweeping hg ho
    have hone : Sweeps number g.entry g.preds rpo (parents, false) (sweep number g.entry g.preds rpo parents) :=
      (sweeping_start hs).sweeps hg ho rfl
    rw [settle]
    cases hflag : (sweep number g.entry g.preds rpo parents).2 with
    | true =>
      have hlt := h.lower hflag
      obtain ⟨k, hk, hrest⟩ := ih h.sound (by omega)
      rw [← Prod.eta (sweep number g.entry g.preds rpo parents), hflag] at hone
      exact ⟨k + 1, by omega, .again hone hrest⟩
    | false =>
      rw [← Prod.eta (sweep number g.entry g.preds rpo parents), hflag] at hone
      exact ⟨1, by omega, .last hone⟩

/-! ## Ancestors are dominators -/

namespace Settled

/-- A path that avoids a block never comes below it. -/
theorem dom_of_above (hs : Settled g number par parents) (hg : g.Consistent) (hb : g.Reachable b)
    (hab : Above (up parents) a b) : g.Dom a b := by
  refine ⟨hb, fun hp => ?_⟩
  have hentry : Above (up parents) a g.entry → a = g.entry := fun h => h.eq_of_fixed hs.up_entry
  have hbelow : g.Reachable b ∧ ¬ Above (up parents) a b := by
    refine hp.closed (P := fun x => g.Reachable x ∧ ¬ Above (up parents) a x)
      ⟨reachable_entry, fun ha => hp.left (hentry ha).symm⟩ fun x y hx hy hya => ⟨hx.1.succ hy, fun ha => ?_⟩
    have hne : y ≠ g.entry := by
      rintro rfl
      exact hya (hentry ha).symm
    have hstep := ha.eq_or_step.resolve_left (Ne.symm hya)
    exact hx.2 (hstep.trans (hs.above_pred y x (hx.1.succ hy) hne (hg.mem_preds_iff.2 hy) hx.1))
  exact hbelow.2 hab

/-- The parent of a block is its immediate dominator. -/
theorem up_spec (hs : Settled g number par parents) (hg : g.Consistent) (hb : g.Reachable b)
    (hne : b ≠ g.entry) :
    g.SDom (up parents b) b ∧ ∀ d, g.SDom d b → g.Dom d (up parents b) := by
  refine ⟨⟨hs.dom_of_above hg hb (.step .refl), fun heq => ?_⟩, fun d hd => hs.dom b d (hs.known b hb) hd⟩
  have hlt := hs.up_lt b (hs.known b hb) hne
  rw [heq] at hlt
  exact Nat.lt_irrefl _ hlt

end Settled

/-! ## From the start -/

/-- At first the entry alone has a parent. -/
theorem sound_seed (ho : Ordered g rpo number par) : Sound g number par (seed g.entry) := by
  have hempty : ∀ b, ¬ Known Table.empty b := by
    intro b hb
    rw [Known, Table.get_empty] at hb
    cases hb
  have hknown : ∀ b, Known (seed g.entry) b → b = g.entry := fun b hb =>
    (known_set.1 hb).resolve_right (hempty b)
  have hup : up (seed g.entry) g.entry = g.entry := by rw [seed, up_set, if_pos rfl]
  refine ⟨⟨Table.get_set_self _ _ _, fun b hb => ?_, fun b hb => ?_, fun b hb hne => ?_⟩, fun b d hb hd => ?_,
    fun b hb => ?_, fun b c hb hne => ?_⟩
  · exact hknown b hb ▸ reachable_entry
  · obtain rfl := hknown b hb
    rwa [hup]
  · exact absurd (hknown b hb) hne
  · obtain rfl := hknown b hb
    exact absurd hd.1.eq_entry hd.2
  · obtain rfl := hknown b hb
    rw [hup, ho.par_entry]
    exact .refl
  · exact absurd (hknown b hb) hne

/-- The measure of the seed is at most the square of the number of blocks. -/
theorem height_seed_le (ho : Ordered g rpo number par) :
    height rpo number (seed g.entry) ≤ rpo.length * rpo.length := by
  refine (List.sum_le_card_nsmul _ rpo.length fun m hm => ?_).trans_eq (by rw [List.length_map, smul_eq_mul])
  obtain ⟨b, -, rfl⟩ := List.mem_map.1 hm
  rw [seed, Table.get_set]
  split
  · exact Nat.le_of_lt (ho.number_lt reachable_entry)
  · rw [Table.get_empty]
    exact Nat.le_refl _

/-- The table of immediate dominators: the entry has none, nor has an unreachable block, and what a
reachable block has is a strict dominator that all its other strict dominators dominate. -/
theorem get_idomsOf (hg : g.Consistent) (ho : Ordered g rpo number par) :
    ((idomsOf number g.entry g.preds rpo).get b.index = none ↔ b = g.entry ∨ ¬ g.Reachable b) ∧
      ∀ a, (idomsOf number g.entry g.preds rpo).get b.index = some a →
        g.SDom a b ∧ ∀ d, g.SDom d b → g.Dom d a := by
  have hs := (sound_seed ho).settled_settle hg ho (Nat.lt_succ_of_le (height_seed_le ho))
  rw [idomsOf]
  simp only [Table.get_set, BlockId.index_inj]
  split
  · next hb => simp [hb]
  · next hne =>
    by_cases hb : g.Reachable b
    · rw [get_eq_up (hs.known b hb)]
      simp only [reduceCtorEq, hne, hb, not_true_eq_false, or_self, Option.some.injEq, true_and]
      rintro _ rfl
      exact hs.up_spec hg hb hne
    · have hunknown : ¬ Known _ b := fun hk => hb (hs.reachable b hk)
      rw [Option.not_isSome_iff_eq_none.1 hunknown]
      simp [hb]

/-- The sweeps from the start come to an end by themselves, with the table of immediate dominators. -/
theorem exists_settles_idomsOf (hg : g.Consistent) (ho : Ordered g rpo number par) :
    ∃ k parents, k ≤ rpo.length * rpo.length + 1 ∧
      Settles number g.entry g.preds rpo k (seed g.entry) parents ∧
      idomsOf number g.entry g.preds rpo = parents.set g.entry.index none := by
  obtain ⟨k, hk, hsettles⟩ := (sound_seed ho).exists_settles hg ho (Nat.lt_succ_of_le (height_seed_le ho))
  exact ⟨k, _, hk, hsettles, rfl⟩

end DomTree

end Midend
