import FontLayout.Diagnostic.Finding
/-!
# Audits

An audit is a computation that collects findings and may have to stop. It stops with exactly one
fatal finding, which is the last; everything found before is kept. Findings that are not fatal
never stop it.

Results:
* `Audit.findings_bind_of_some`, `Audit.findings_bind_of_none`: findings are kept in order, and
  nothing is found after a stop.
-/
namespace FontLayout

/-- Findings in order, and a value unless the computation had to stop. -/
structure Audit (α : Type) where
  findings : List Finding
  value : Option α

namespace Audit
variable {α β : Type}

/-- A value, and nothing found. -/
def pure (a : α) : Audit α := ⟨[], some a⟩

/-- Stops with a fatal finding. -/
def stop (f : Finding) : Audit α := ⟨[f], none⟩

/-- A value that comes with findings. -/
def tell (fs : List Finding) (a : α) : Audit α := ⟨fs, some a⟩

/-- Goes on with the value, if there is one. -/
def bind (x : Audit α) (f : α → Audit β) : Audit β :=
  match x.value with
  | none => ⟨x.findings, none⟩
  | some a => let y := f a; ⟨x.findings ++ y.findings, y.value⟩

/-- Changes the value. -/
def map (f : α → β) (x : Audit α) : Audit β := ⟨x.findings, x.value.map f⟩

instance : Monad Audit where
  pure := pure
  bind := bind

/-- The loop of `traverse`: results and findings so far, last first. -/
def traverseLoop (f : α → Audit β) : List α → List β → List (List Finding) → Audit (List β)
  | [], done, found => ⟨found.reverse.flatten, some done.reverse⟩
  | a :: rest, done, found =>
    let x := f a
    match x.value with
    | none => ⟨(x.findings :: found).reverse.flatten, none⟩
    | some b => traverseLoop f rest (b :: done) (x.findings :: found)

/-- Runs an audit for each element in order, up to the first that stops. -/
def traverse (f : α → Audit β) (xs : List α) : Audit (List β) := traverseLoop f xs [] []

theorem findings_bind_of_some {x : Audit α} {f : α → Audit β} {a : α} (h : x.value = some a) :
    (x.bind f).findings = x.findings ++ (f a).findings := by
  simp [bind, h]

theorem findings_bind_of_none {x : Audit α} {f : α → Audit β} (h : x.value = none) :
    (x.bind f).findings = x.findings := by
  simp [bind, h]

end Audit
end FontLayout
