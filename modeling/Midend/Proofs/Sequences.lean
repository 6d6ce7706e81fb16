import Mathlib.Data.List.Forall2
import Midend.Fault
import Midend.Table

/-!
# Checked steps in sequence

What it says about the steps that a sequence of checked steps came out well, and when it does.  A
traversal of a list succeeds exactly when every step does; then it is the pure traversal with the
results of the steps.  Everything here is an inversion: proofs about passes take a successful pass
apart with it and never unfold the monad.  What does not depend on the kind of fault is said of any kind of
error, so that it serves reading too.

The end is about tables that a list is written to, and about the indices of blocks and instructions, which
are what the tables are written at.
-/

namespace Midend

namespace Checked

variable {ε α β γ : Type}

/-- Doing nothing succeeds with the value given. -/
@[simp] theorem pure_eq_ok {a b : α} : (pure a : Except ε α) = .ok b ↔ a = b := by
  simp [pure, Except.pure]

/-- Failing does not succeed. -/
@[simp] theorem throw_ne_ok {e : ε} {a : α} : (throw e : Except ε α) ≠ .ok a := by
  simp [throw, throwThe, MonadExceptOf.throw]

/-- A sequence succeeds when both parts do. -/
@[simp] theorem bind_eq_ok {x : Except ε α} {f : α → Except ε β} {b : β} :
    (x >>= f) = .ok b ↔ ∃ a, x = .ok a ∧ f a = .ok b := by
  cases x <;> simp [bind, Except.bind]

/-- Applying a function succeeds when there is something to apply it to. -/
@[simp] theorem map_eq_ok {x : Except ε α} {f : α → β} {b : β} :
    (f <$> x) = .ok b ↔ ∃ a, x = .ok a ∧ f a = b := by
  cases x <;> simp [Functor.map, Except.map]

/-- A step and what follows it succeed if the step does and what follows its result. -/
theorem bind_total {x : Except ε α} {f : α → Except ε β} (hx : ∃ a, x = .ok a)
    (hf : ∀ a, x = .ok a → ∃ b, f a = .ok b) : ∃ b, (x >>= f) = .ok b := by
  obtain ⟨a, rfl⟩ := hx
  exact hf a rfl

/-- A sequence has an answer if its second part has one on what its first part gives. -/
theorem bind_total_of_eq {x : Except ε α} {f : α → Except ε β} {a : α} (hx : x = .ok a)
    (hf : ∃ b, f a = .ok b) : ∃ b, (x >>= f) = .ok b := by
  subst hx
  exact hf

instance [DecidableEq ε] (x : Except ε α) (e : ε) : Decidable (x = .error e) :=
  match x with
  | .ok _ => isFalse nofun
  | .error e' => decidable_of_iff (e' = e) (by rw [Except.error.injEq])

/-- A test of an answer passes when there is an answer that passes it. -/
theorem any_toOption {x : Except ε α} {p : α → Bool} :
    x.toOption.any p = true ↔ ∃ a, x = .ok a ∧ p a = true := by
  cases x <;> simp [Except.toOption]

/-! ## Maps -/

/-- A list is mapped when each member is, one by one. -/
theorem mapM_eq_ok {f : α → Except ε β} {xs : List α} {ys : List β} :
    xs.mapM f = .ok ys ↔ List.Forall₂ (fun x y => f x = .ok y) xs ys := by
  induction xs generalizing ys with
  | nil => cases ys <;> simp
  | cons x xs ih =>
    cases ys with
    | nil => simp
    | cons y ys => simp [ih]

/-- What is related to members of a list has its partner there. -/
theorem exists_of_forall₂ {R : α → β → Prop} {xs : List α} {ys : List β} (h : List.Forall₂ R xs ys) {y : β}
    (hy : y ∈ ys) : ∃ x ∈ xs, R x y := by
  induction h with
  | nil => simp at hy
  | cons hxy _ ih =>
    rcases List.mem_cons.1 hy with rfl | hy
    · exact ⟨_, List.mem_cons_self, hxy⟩
    · obtain ⟨x, hx, hR⟩ := ih hy
      exact ⟨x, List.mem_cons_of_mem _ hx, hR⟩

/-- Every step of a successful map succeeds. -/
theorem exists_of_mapM {f : α → Except ε β} {xs : List α} {ys : List β} (h : xs.mapM f = .ok ys)
    {x : α} (hx : x ∈ xs) : ∃ y ∈ ys, f x = .ok y :=
  exists_of_forall₂ (R := fun y x => f x = .ok y) (List.Forall₂.flip (mapM_eq_ok.1 h)) hx

/-- Every result of a successful map is the result of a step. -/
theorem exists_of_mem_mapM {f : α → Except ε β} {xs : List α} {ys : List β} (h : xs.mapM f = .ok ys)
    {y : β} (hy : y ∈ ys) : ∃ x ∈ xs, f x = .ok y :=
  exists_of_forall₂ (mapM_eq_ok.1 h) hy

/-- A list is mapped by a function that gives the answers. -/
theorem mapM_eq_ok_map {f : α → Except ε β} {g : α → β} {xs : List α}
    (h : ∀ x ∈ xs, f x = .ok (g x)) : xs.mapM f = .ok (xs.map g) := by
  rw [mapM_eq_ok]
  induction xs with
  | nil => simp
  | cons x xs ih =>
    simp only [List.map_cons, List.forall₂_cons]
    exact ⟨h x (by simp), ih fun y hy => h y (List.mem_cons_of_mem _ hy)⟩

/-- A list is mapped without a fault if each member is. -/
theorem mapM_total {f : α → Except ε β} {xs : List α} (h : ∀ x ∈ xs, ∃ y, f x = .ok y) :
    ∃ ys, xs.mapM f = .ok ys := by
  induction xs with
  | nil => exact ⟨[], rfl⟩
  | cons x xs ih =>
    obtain ⟨y, hy⟩ := h x List.mem_cons_self
    obtain ⟨ys, hys⟩ := ih fun z hz => h z (List.mem_cons_of_mem x hz)
    exact ⟨y :: ys, mapM_eq_ok.2 (.cons hy (mapM_eq_ok.1 hys))⟩

/-- Lists made for every member come to nothing exactly when each of them does. -/
theorem mapM_flatten_eq_nil {f : α → Checked (List β)} {xs : List α} :
    (∃ ys, xs.mapM f = .ok ys ∧ ys.flatten = []) ↔ ∀ x ∈ xs, f x = .ok [] := by
  constructor
  · rintro ⟨ys, hys, hnil⟩ x hx
    obtain ⟨y, hy, hfx⟩ := exists_of_mapM hys hx
    rw [hfx, List.flatten_eq_nil_iff.1 hnil y hy]
  · intro h
    exact ⟨_, mapM_eq_ok_map (g := fun _ => []) h, by simp⟩

/-! ## Filters -/

/-- Going through a list and keeping some answers is going through it with a function that gives them. -/
theorem filterMapM_eq_ok {f : α → Checked (Option β)} {xs : List α} {ys : List β} :
    xs.filterMapM f = .ok ys ↔
      ∃ g : α → Option β, (∀ x ∈ xs, f x = .ok (g x)) ∧ xs.filterMap g = ys := by
  constructor
  · intro h
    refine ⟨fun x => ((f x).toOption).join, ?_⟩
    induction xs generalizing ys with
    | nil => simpa using h
    | cons x xs ih =>
      simp only [List.filterMapM_cons, bind_eq_ok] at h
      obtain ⟨o, ho, h⟩ := h
      cases o with
      | none =>
        obtain ⟨hall, hys⟩ := ih h
        simp only [List.mem_cons, forall_eq_or_imp, List.filterMap_cons, ho]
        exact ⟨⟨rfl, hall⟩, hys⟩
      | some y =>
        simp only [bind_eq_ok, pure_eq_ok] at h
        obtain ⟨zs, hzs, rfl⟩ := h
        obtain ⟨hall, rfl⟩ := ih hzs
        simp only [List.mem_cons, forall_eq_or_imp, List.filterMap_cons, ho]
        exact ⟨⟨rfl, hall⟩, rfl⟩
  · rintro ⟨g, hall, rfl⟩
    induction xs with
    | nil => rfl
    | cons x xs ih =>
      simp only [List.mem_cons, forall_eq_or_imp] at hall
      simp only [List.filterMapM_cons, bind_eq_ok, hall.1, Except.ok.injEq, exists_eq_left',
        List.filterMap_cons]
      cases hg : g x with
      | none => exact ih hall.2
      | some y =>
        simp only [bind_eq_ok, pure_eq_ok]
        exact ⟨_, ih hall.2, rfl⟩

/-- Every result of a successful filter is the result of a step. -/
theorem exists_of_mem_filterMapM {f : α → Checked (Option β)} {xs : List α} {ys : List β}
    (h : xs.filterMapM f = .ok ys) {y : β} (hy : y ∈ ys) : ∃ x ∈ xs, f x = .ok (some y) := by
  obtain ⟨q, hq, rfl⟩ := filterMapM_eq_ok.1 h
  obtain ⟨x, hx, hy⟩ := List.mem_filterMap.1 hy
  exact ⟨x, hx, by rw [hq x hx, hy]⟩

/-- A search for things that are wrong finds nothing exactly when nothing is wrong with any member. -/
theorem filterMapM_eq_nil {f : α → Checked (Option β)} {xs : List α} :
    xs.filterMapM f = .ok [] ↔ ∀ x ∈ xs, f x = .ok none := by
  rw [filterMapM_eq_ok]
  constructor
  · rintro ⟨g, hall, hnil⟩ x hx
    rw [hall x hx, List.filterMap_eq_nil_iff.1 hnil x hx]
  · intro h
    exact ⟨fun _ => none, h, by simp⟩

/-- A list is filtered by a test that gives the answers. -/
theorem filterM_eq_ok {f : α → Checked Bool} {xs ys : List α} (h : xs.filterM f = .ok ys) :
    ∃ p : α → Bool, (∀ x ∈ xs, f x = .ok (p x)) ∧ xs.filter p = ys := by
  refine ⟨fun x => ((f x).toOption).getD false, ?_⟩
  have key : ∀ (xs acc : List α) (ys : List α), xs.filterAuxM f acc = .ok ys →
      (∀ x ∈ xs, f x = .ok (((f x).toOption).getD false)) ∧
        ys = (xs.filter fun x => ((f x).toOption).getD false).reverse ++ acc := by
    intro xs
    induction xs with
    | nil =>
      intro acc ys h
      simp only [List.filterAuxM, pure_eq_ok] at h
      simp [h]
    | cons x xs ih =>
      intro acc ys h
      simp only [List.filterAuxM, bind_eq_ok] at h
      obtain ⟨b, hb, h⟩ := h
      obtain ⟨hall, rfl⟩ := ih _ _ h
      have hx : ((f x).toOption).getD false = b := by rw [hb]; rfl
      simp only [List.mem_cons, forall_eq_or_imp]
      refine ⟨⟨by rw [hx, hb], hall⟩, ?_⟩
      cases b <;> simp [hx]
  simp only [List.filterM, bind_eq_ok, pure_eq_ok] at h
  obtain ⟨zs, hzs, rfl⟩ := h
  obtain ⟨hall, rfl⟩ := key xs [] zs hzs
  exact ⟨hall, by simp⟩

/-- Keeping some answers goes without a fault if each answer does. -/
theorem filterMapM_total {f : α → Checked (Option β)} {xs : List α} (h : ∀ x ∈ xs, ∃ o, f x = .ok o) :
    ∃ ys, xs.filterMapM f = .ok ys := by
  refine ⟨_, filterMapM_eq_ok.2 ⟨fun x => ((f x).toOption).join, fun x hx => ?_, rfl⟩⟩
  obtain ⟨o, ho⟩ := h x hx
  simp only [ho]
  rfl

/-- Filtering goes without a fault if each test does. -/
theorem filterM_total {f : α → Checked Bool} {xs : List α} (h : ∀ x ∈ xs, ∃ b, f x = .ok b) :
    ∃ ys, xs.filterM f = .ok ys := by
  have key : ∀ (xs acc : List α), (∀ x ∈ xs, ∃ b, f x = .ok b) → ∃ ys, xs.filterAuxM f acc = .ok ys := by
    intro xs
    induction xs with
    | nil => exact fun acc _ => ⟨acc, rfl⟩
    | cons x xs ih =>
      intro acc h
      obtain ⟨b, hb⟩ := h x (by simp)
      obtain ⟨ys, hys⟩ := ih (if b then x :: acc else acc) fun z hz => h z (List.mem_cons_of_mem _ hz)
      refine ⟨ys, ?_⟩
      simp only [List.filterAuxM, bind_eq_ok, hb, Except.ok.injEq, exists_eq_left']
      cases b <;> simpa using hys
  obtain ⟨ys, hys⟩ := key xs [] h
  exact ⟨ys.reverse, by simp [List.filterM, hys]⟩

/-- Filtering by tests that always answer is filtering. -/
theorem filterM_eq_ok_filter {f : α → Checked Bool} {p : α → Bool} {xs : List α}
    (h : ∀ x ∈ xs, f x = .ok (p x)) : xs.filterM f = .ok (xs.filter p) := by
  obtain ⟨ys, hys⟩ := filterM_total fun x hx => ⟨p x, h x hx⟩
  obtain ⟨q, hq, rfl⟩ := filterM_eq_ok hys
  have hpq : xs.filter q = xs.filter p := List.filter_congr fun x hx => by
    have hx' := hq x hx
    rw [h x hx] at hx'
    exact (Except.ok.inj hx').symm
  rw [hys, hpq]

/-- A test that passes somewhere passes for a member of the list. -/
theorem exists_of_anyM {f : α → Checked Bool} {xs : List α} (h : xs.anyM f = .ok true) :
    ∃ x ∈ xs, f x = .ok true := by
  induction xs with
  | nil => simp at h
  | cons x xs ih =>
    simp only [List.anyM_cons, bind_eq_ok] at h
    obtain ⟨b, hb, h⟩ := h
    cases b with
    | true => exact ⟨x, by simp, hb⟩
    | false =>
      obtain ⟨y, hy, hfy⟩ := ih (by simpa using h)
      exact ⟨y, List.mem_cons_of_mem _ hy, hfy⟩

/-- A test of some member answers yes exactly when one of the members passes it. -/
theorem anyM_spec {f : α → Checked Bool} {P : α → Prop} {xs : List α}
    (h : ∀ x ∈ xs, ∃ b, f x = .ok b ∧ (b = true ↔ P x)) :
    ∃ b, xs.anyM f = .ok b ∧ (b = true ↔ ∃ x ∈ xs, P x) := by
  induction xs with
  | nil => exact ⟨false, rfl, by simp⟩
  | cons x xs ih =>
    simp only [List.mem_cons, forall_eq_or_imp] at h
    obtain ⟨⟨b, hb, hP⟩, hxs⟩ := h
    simp only [List.anyM_cons, bind_eq_ok, hb, Except.ok.injEq, exists_eq_left', List.mem_cons,
      exists_eq_or_imp, ← hP]
    cases b with
    | true => exact ⟨true, rfl, by simp⟩
    | false => simpa using ih hxs

/-- Looking for a member goes without a fault if each test does. -/
theorem anyM_total {f : α → Checked Bool} {xs : List α} (h : ∀ x ∈ xs, ∃ b, f x = .ok b) :
    ∃ b, xs.anyM f = .ok b := by
  obtain ⟨b, hb, -⟩ := anyM_spec (P := fun x => f x = .ok true) fun x hx => by
    obtain ⟨b, hb⟩ := h x hx
    exact ⟨b, hb, by simp [hb]⟩
  exact ⟨b, hb⟩

/-! ## Folds -/

/-- What the steps of a successful fold keep, said of the members taken so far, holds of all at its end. -/
theorem foldlM_prefix {f : β → α → Except ε β} {xs : List α} {b b' : β} {P : List α → β → Prop}
    (h : xs.foldlM f b = .ok b') (hb : P [] b)
    (step : ∀ done x rest c c', xs = done ++ x :: rest → P done c → f c x = .ok c' →
      P (done ++ [x]) c') : P xs b' := by
  have key : ∀ (rest done : List α) (c : β), xs = done ++ rest → P done c →
      rest.foldlM f c = .ok b' → P xs b' := by
    intro rest
    induction rest with
    | nil =>
      intro done c hxs hc h
      obtain rfl : c = b' := by simpa using h
      rwa [hxs, List.append_nil]
    | cons x rest ih =>
      intro done c hxs hc h
      simp only [List.foldlM_cons, bind_eq_ok] at h
      obtain ⟨c', hc', h⟩ := h
      exact ih (done ++ [x]) c' (by simpa using hxs) (step done x rest c c' hxs hc hc') h
  exact key xs [] b rfl hb h

/-- A fold whose steps succeed and keep a property succeeds and has it. -/
theorem foldlM_total {f : β → α → Except ε β} {xs : List α} {b : β} {P : β → Prop} (hb : P b)
    (step : ∀ x ∈ xs, ∀ c, P c → ∃ c', f c x = .ok c' ∧ P c') : ∃ b', xs.foldlM f b = .ok b' ∧ P b' := by
  induction xs generalizing b with
  | nil => exact ⟨b, rfl, hb⟩
  | cons x xs ih =>
    obtain ⟨c, hc, hPc⟩ := step x (by simp) b hb
    obtain ⟨b', hb', hP⟩ := ih hPc fun y hy => step y (List.mem_cons_of_mem _ hy)
    exact ⟨b', by simp [hc, hb'], hP⟩

/-- A fold whose steps succeed and keep a property of the members taken so far has it of all. -/
theorem foldlM_total_prefix {f : β → α → Except ε β} {xs : List α} {b : β} {P : List α → β → Prop}
    (hb : P [] b)
    (step : ∀ done x rest c, xs = done ++ x :: rest → P done c → ∃ c', f c x = .ok c' ∧ P (done ++ [x]) c') :
    ∃ b', xs.foldlM f b = .ok b' ∧ P xs b' := by
  have key : ∀ (rest done : List α) (c : β), xs = done ++ rest → P done c →
      ∃ b', rest.foldlM f c = .ok b' ∧ P xs b' := by
    intro rest
    induction rest with
    | nil =>
      intro done c hxs hc
      rw [List.append_nil] at hxs
      exact ⟨c, rfl, hxs ▸ hc⟩
    | cons x rest ih =>
      intro done c hxs hc
      obtain ⟨c', hc', hP⟩ := step done x rest c hxs hc
      obtain ⟨b', hb', hP'⟩ := ih (done ++ [x]) c' (by simpa using hxs) hP
      exact ⟨b', by simp [hc', hb'], hP'⟩
  exact key xs [] b rfl hb

end Checked

/-- A weaker test that some member passes as well counts more of them. -/
theorem countP_lt_countP {α : Type} {p q : α → Bool} {l : List α} {x : α} (h : ∀ y ∈ l, p y → q y)
    (hx : x ∈ l) (hp : p x = false) (hq : q x = true) : l.countP p < l.countP q := by
  obtain ⟨l, r, rfl⟩ := List.append_of_mem hx
  have hl : l.countP p ≤ l.countP q := List.countP_mono_left fun y hy => h y (by simp [hy])
  have hr : r.countP p ≤ r.countP q := List.countP_mono_left fun y hy => h y (by simp [hy])
  simp only [List.countP_append, List.countP_cons, hp, hq]
  simp
  omega

/-! ## Tables filled from a list -/

namespace Table

variable {α β : Type} [Inhabited α]

/-- Filling a table from a list, an entry that no member of the list names stays as it was. -/
theorem get_foldl_set_of_ne {k : β → Nat} {v : β → α} {xs : List β} {t : Table α} {n : Nat}
    (h : ∀ x ∈ xs, k x ≠ n) :
    (xs.foldl (fun t x => t.set (k x) (v x)) t).get n = t.get n := by
  induction xs generalizing t with
  | nil => rfl
  | cons x xs ih =>
    rw [List.foldl_cons, ih fun y hy => h y (List.mem_cons_of_mem _ hy)]
    exact get_set_ne _ _ (Ne.symm (h x (by simp)))

/-- Filling a table from a list, each member finds its own entry. -/
theorem get_foldl_set_of_mem {k : β → Nat} {v : β → α} {xs : List β} {t : Table α} {x : β}
    (hx : x ∈ xs) (hkey : ∀ y ∈ xs, k y = k x → v y = v x) :
    (xs.foldl (fun t x => t.set (k x) (v x)) t).get (k x) = v x := by
  induction xs generalizing t x with
  | nil => simp at hx
  | cons z xs ih =>
    rw [List.foldl_cons]
    by_cases hmem : ∃ y ∈ xs, k y = k x
    · obtain ⟨y, hy, hyx⟩ := hmem
      have hval := hkey y (List.mem_cons_of_mem _ hy) hyx
      rw [← hyx, ← hval]
      refine ih hy ?_
      intro w hw hwy
      rw [hval]
      exact hkey w (List.mem_cons_of_mem _ hw) (hwy.trans hyx)
    · have hne : ∀ y ∈ xs, k y ≠ k x := fun y hy h => hmem ⟨y, hy, h⟩
      rw [get_foldl_set_of_ne hne]
      rcases List.mem_cons.1 hx with rfl | hx
      · exact get_set_self _ _ _
      · exact absurd rfl (hne x hx)

/-- Filling a table from a list whose members name different entries. -/
theorem get_foldl_set [DecidableEq β] {k : β → Nat} (hk : Function.Injective k) (v : β → α) (xs : List β)
    (t : Table α) (x : β) :
    (xs.foldl (fun t x => t.set (k x) (v x)) t).get (k x) = if x ∈ xs then v x else t.get (k x) := by
  split
  · next hx => exact get_foldl_set_of_mem hx fun y _ hy => by rw [hk hy]
  · next hx => exact get_foldl_set_of_ne fun y hy hyx => hx (hk hyx ▸ hy)

end Table

/-- A block is known by its number. -/
@[simp] theorem BlockId.index_inj {a b : BlockId} : a.index = b.index ↔ a = b := by
  cases a; cases b; simp

/-- An instruction is known by its number. -/
@[simp] theorem InstId.index_inj {a b : InstId} : a.index = b.index ↔ a = b := by
  cases a; cases b; simp

/-- Blocks with the same number are the same. -/
theorem BlockId.index_injective : Function.Injective BlockId.index := fun _ _ => index_inj.1

/-- Instructions with the same number are the same. -/
theorem InstId.index_injective : Function.Injective InstId.index := fun _ _ => index_inj.1

end Midend
