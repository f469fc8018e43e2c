import Mathlib.Algebra.Group.Nat.Defs
import EfaExamples.Efa.Model.Fabric
/-!
# Class `Selector`

`selector.h`: the completion queues are polled one after another, every
completion is stored in its context, and the handle of the context is the
event. A remote write has no context of its own; it goes to the one
registered under its immediate.
-/

namespace EfaExamples

/-- The immediate of a remote write, which `HandleCompletion` cuts to 32 bits. -/
def Entry.immData (e : Entry) : ℕ := e.data % 2 ^ 32

namespace Fabric

variable {V : Type}

/-- `Selector::Register(id, context)`. The map keeps a context it has. -/
def register (id ctx : ℕ) (f : Fabric) : Fabric :=
  { f with immDataContexts := fun i =>
      if i = id then (f.immDataContexts i).or (some ctx) else f.immDataContexts i }

/-- `Selector::UnRegister(id)`. -/
def unRegister (id : ℕ) (f : Fabric) : Fabric :=
  { f with immDataContexts := fun i => if i = id then none else f.immDataContexts i }

/-- The context a completion goes to. -/
def context (f : Fabric) (e : Entry) : Option ℕ :=
  if e.flags.remoteWrite then
    if e.immData = 0 then none else f.immDataContexts e.immData
  else e.opContext

/-- `context->entry = entry`. -/
def store (ctx : ℕ) (e : Entry) (f : Fabric) : Fabric :=
  { f with
    entry := fun i => if i = ctx then e else f.entry i
    history := { f.history with stored := f.history.stored ++ [(ctx, e)] } }

/-- `Selector::HandleCompletion`. -/
def handleCompletion : List Entry → Fabric → List ℕ × Fabric
  | [], f => ([], f)
  | e :: es, f =>
    match f.context e with
    | none => handleCompletion es f
    | some ctx => (ctx :: (handleCompletion es (f.store ctx e)).1, (handleCompletion es (f.store ctx e)).2)

/-- The error of a queue, or a return code that means neither entries nor none. -/
def fatal (rc : ℤ) (f : Fabric) : Exn V :=
  .runtimeError ("fatal error. error(" ++ toString rc ++ "): " ++ f.strerror (-rc))

/-- `Selector::HandleError`, of what `fi_cq_readerr` returns. -/
def handleError (rc : ℤ) (err : String) (f : Fabric) : Exn V :=
  if rc < 0 then f.fatal rc
  else if rc > 0 then .runtimeError ("libfabric operation fail. error: " ++ err)
  else .runtimeError "unknown error"

/-- `Selector::Select`, from queue to queue. -/
def select : List ℕ → Fabric → Except (Exn V) (List ℕ) × Fabric
  | [], f => (.ok [], f)
  | cq :: cqs, f =>
    match f.fault cq with
    | some (.avail rc err) => (.error (f.handleError rc err), f)
    | some (.other rc) => (.error (f.fatal rc), f)
    | none =>
      let r := cqRead cq kMaxCQEntries f.completions
      let f := { f with
        completions := r.2
        history := { f.history with taken := f.history.taken ++ r.1 } }
      let r := handleCompletion r.1 f
      match select cqs r.2 with
      | (.ok events, f) => (.ok (r.1 ++ events), f)
      | (.error e, f) => (.error e, f)

end Fabric

end EfaExamples
