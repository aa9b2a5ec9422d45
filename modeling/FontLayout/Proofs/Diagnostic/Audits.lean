import FontLayout.Diagnostic.Audit
import Mathlib.Data.List.Forall2
/-!
# How audits end

An audit that stops says why: its last finding is fatal, and no other is. An audit that comes to a
value has found nothing fatal. Both hold of audits that are put together from such audits, one
after another or one for each element of a list.

An audit passes if it comes to a value without an error on the way; then so do all its parts.

Results:
* `Audit.Sound.bind`, `Audit.sound_traverse`: audits made of sound audits are sound.
* `Audit.findings_traverse`: audits of a list are run in order, up to the first that stops.
* `Audit.passes_bind`, `Audit.forall₂_of_passes_traverse`: the parts of an audit that passes.
-/
namespace FontLayout

/-- Whether none of some findings is fatal. -/
def Harmless (fs : List Finding) : Prop := ∀ f ∈ fs, f.level ≠ .fatal

theorem harmless_nil : Harmless [] := fun _ hf => (nomatch hf)

theorem harmless_append {fs gs : List Finding} :
    Harmless (fs ++ gs) ↔ Harmless fs ∧ Harmless gs := List.forall_mem_append

theorem harmless_of_error {fs : List Finding} (h : ∀ f ∈ fs, f.level = .error) : Harmless fs := by
  intro f hf he
  rw [h f hf] at he
  cases he

/-- If no step of a run takes back what is found, the run does not. -/
theorem subset_foldl {σ α β : Type} {f : σ → α → σ} (found : σ → List β)
    (hstep : ∀ s a, found s ⊆ found (f s a)) (xs : List α) (s : σ) :
    found s ⊆ found (xs.foldl f s) := by
  induction xs generalizing s with
  | nil => exact List.Subset.refl _
  | cons a xs ih => exact List.Subset.trans (hstep s a) (ih _)

/-- If each step of a run keeps the key of one more element, the run keeps the keys of all. -/
theorem kept_foldl {σ α κ : Type} {step : σ → α → σ} {key : α → κ} (kept : σ → κ → Prop)
    (hstep : ∀ s a k, kept (step s a) k ↔ kept s k ∨ k = key a) (as : List α) (s : σ) (k : κ) :
    kept (as.foldl step s) k ↔ kept s k ∨ k ∈ as.map key := by
  induction as generalizing s with
  | nil => simp
  | cons a as ih => rw [List.foldl_cons, ih, hstep, List.map_cons, List.mem_cons, or_assoc]

namespace Audit
variable {α β : Type} {x : Audit α} {f : α → Audit β}

/-- What is found when audits are run in order, up to and with the first that stops. -/
def foundInOrder : List (Audit α) → List Finding
  | [] => []
  | x :: rest => x.findings ++ x.value.elim [] fun _ => foundInOrder rest

theorem findings_bind (x : Audit α) (f : α → Audit β) :
    (x >>= f).findings = x.findings ++ x.value.elim [] fun a => (f a).findings := by
  change (x.bind f).findings = _
  cases hx : x.value with
  | none => rw [findings_bind_of_none hx, Option.elim_none, List.append_nil]
  | some a => rw [findings_bind_of_some hx, Option.elim_some]

theorem value_bind (x : Audit α) (f : α → Audit β) :
    (x >>= f).value = x.value.bind fun a => (f a).value := by
  change (x.bind f).value = _
  unfold bind
  cases x.value <;> rfl

theorem value_bind_eq_some {b : β} :
    (x >>= f).value = some b ↔ ∃ a, x.value = some a ∧ (f a).value = some b := by
  rw [value_bind, Option.bind_eq_some_iff]

/-! ## Soundness -/

/-- Whether an audit stops with one fatal finding, which is the last, and otherwise finds nothing
fatal. -/
def Sound (x : Audit α) : Prop :=
  match x.value with
  | some _ => Harmless x.findings
  | none => ∃ before last, x.findings = before ++ [last] ∧ Harmless before ∧ last.level = .fatal

theorem sound_pure (a : α) : (pure a).Sound := harmless_nil

theorem sound_tell {fs : List Finding} (h : Harmless fs) (a : α) : (tell fs a).Sound := h

theorem sound_stop {f : Finding} (h : f.level = .fatal) : (stop f : Audit α).Sound :=
  ⟨[], f, rfl, harmless_nil, h⟩

theorem Sound.map (h : x.Sound) (f : α → β) : (x.map f).Sound := by
  unfold Sound Audit.map at *
  cases hx : x.value <;> simpa [hx] using h

/-- Findings before a sound audit that are not fatal leave it sound. -/
theorem Sound.after (h : x.Sound) {fs : List Finding} (hfs : Harmless fs) :
    (⟨fs ++ x.findings, x.value⟩ : Audit α).Sound := by
  unfold Sound at *
  dsimp only
  split
  · next hx =>
    rw [hx] at h
    exact harmless_append.2 ⟨hfs, h⟩
  · next hx =>
    rw [hx] at h
    obtain ⟨before, last, he, hbefore, hlast⟩ := h
    exact ⟨fs ++ before, last, by rw [he, List.append_assoc], harmless_append.2 ⟨hfs, hbefore⟩,
      hlast⟩

theorem Sound.bind (h : x.Sound) (hf : ∀ a, x.value = some a → (f a).Sound) :
    (x >>= f).Sound := by
  change (x.bind f).Sound
  unfold Audit.bind
  split
  · next hx =>
    unfold Sound at *
    rwa [hx] at h
  · next a hx =>
    refine (hf a hx).after ?_
    unfold Sound at h
    rwa [hx] at h

/-! ## Lists -/

theorem traverseLoop_eq (f : α → Audit β) (xs : List α) (done : List β)
    (found : List (List Finding)) :
    traverseLoop f xs done found =
      ⟨found.reverse.flatten ++ (traverse f xs).findings,
        (traverse f xs).value.map (done.reverse ++ ·)⟩ := by
  induction xs generalizing done found with
  | nil => simp [traverse, traverseLoop]
  | cons a xs ih =>
    rw [traverse, traverseLoop, traverseLoop]
    cases hvalue : (f a).value with
    | none => simp
    | some b =>
      dsimp only
      rw [ih, ih [b]]
      simp [Function.comp_def]

theorem traverse_cons (f : α → Audit β) (a : α) (xs : List α) :
    traverse f (a :: xs) = f a >>= fun b => (traverse f xs).map (b :: ·) := by
  change _ = (f a).bind _
  rw [traverse, traverseLoop, Audit.bind]
  cases hvalue : (f a).value with
  | none => simp
  | some b =>
    dsimp only
    rw [traverseLoop_eq]
    simp [Audit.map]

theorem findings_traverse (f : α → Audit β) (xs : List α) :
    (traverse f xs).findings = foundInOrder (xs.map f) := by
  induction xs with
  | nil => rfl
  | cons a xs ih =>
    rw [traverse_cons, findings_bind, List.map_cons, foundInOrder, ← ih]
    rfl

/-- If an audit of each element does not stop, none of them has stopped. -/
theorem forall₂_of_traverse {xs : List α} {bs : List β} (h : (traverse f xs).value = some bs) :
    List.Forall₂ (fun a b => (f a).value = some b) xs bs := by
  induction xs generalizing bs with
  | nil =>
    cases h
    exact .nil
  | cons a xs ih =>
    rw [traverse_cons] at h
    obtain ⟨b, hb, h⟩ := value_bind_eq_some.1 h
    obtain ⟨bs, hbs, rfl⟩ := Option.map_eq_some_iff.1 h
    exact .cons hb (ih hbs)

theorem sound_traverse {xs : List α} (h : ∀ a ∈ xs, (f a).Sound) : (traverse f xs).Sound := by
  induction xs with
  | nil => exact sound_pure []
  | cons a xs ih =>
    rw [traverse_cons]
    refine (h a List.mem_cons_self).bind fun b _ => Sound.map ?_ _
    exact ih fun a ha => h a (List.mem_cons_of_mem _ ha)

/-! ## Audits without errors -/

/-- Whether an audit comes to a value and finds no error on the way. -/
def Passes (x : Audit α) (a : α) : Prop := x.value = some a ∧ ∀ f ∈ x.findings, f.level ≠ .error

theorem passes_bind {b : β} :
    (x >>= f).Passes b ↔ ∃ a, x.Passes a ∧ (f a).Passes b := by
  unfold Passes
  rw [value_bind, findings_bind]
  cases x.value with
  | none => simp
  | some a => simp [and_assoc, and_left_comm, or_imp, forall_and]

theorem passes_map {g : α → β} {b : β} : (x.map g).Passes b ↔ ∃ a, x.Passes a ∧ g a = b := by
  unfold Passes map
  cases x.value <;> simp [and_comm]

/-- If audits of all elements of a list pass together, each passes. -/
theorem forall₂_of_passes_traverse {xs : List α} {bs : List β} (h : (traverse f xs).Passes bs) :
    List.Forall₂ (fun a b => (f a).Passes b) xs bs := by
  induction xs generalizing bs with
  | nil =>
    cases h.1
    exact .nil
  | cons a xs ih =>
    rw [traverse_cons] at h
    obtain ⟨b, hb, h⟩ := passes_bind.1 h
    obtain ⟨bs, hbs, rfl⟩ := passes_map.1 h
    exact .cons hb (ih hbs)

end Audit
end FontLayout
