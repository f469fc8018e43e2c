import Mathlib.Data.List.Nodup
import EfaExamples.Coro.Waiting
import EfaExamples.Efa.Select
/-!
# What an error takes with it

`Select` collects its events in a local vector and throws in the middle of the loop.
The completions read before that have left their queues and are stored, and
nobody is scheduled for them. So nothing is lost exactly if no queue fails, or no
completion read before the first that does has a context.
-/

namespace EfaExamples

namespace Fabric

variable {f : Fabric} {cq cq' : ℕ} {cqs : List ℕ} {e : Entry}

/-! ## What each queue gives -/

/-- The entries a queue gives at one reading. -/
def front (f : Fabric) (cq : ℕ) : List Entry :=
  ((f.completions.filter (·.1 = cq)).map Prod.snd).take kMaxCQEntries

end Fabric

/-! ## `IO::Select` -/

section Select

open Loop

variable {Loc G : Type} {s s' : Loop Loc G ConnOp Fabric Val} {r : Except (Exn Val) Unit}
variable {es : List Entry} {events : List ℕ}

/-- `IO::Select`: what it throws, if it does, and the state it leaves. -/
def Loop.select (s : Loop Loc G ConnOp Fabric Val) :
    Option (Except (Exn Val) Unit × Loop Loc G ConnOp Fabric Val) :=
  match s.world.select s.world.cqs with
  | (.ok events, f) => ({ s with world := f }.callAll events).map fun s => (.ok (), s)
  | (.error e, f) => some (.error e, { s with world := f })

end Select

namespace TwoQueues

/-! ## Two queues -/

/-- The loop with that `Recv` suspended. -/
def waiting (f : Fabric) : Loop Unit Unit ConnOp Fabric Val where
  seq := 1
  coros i := if i = 0 then
      some { Coro.new (.io (.recv ⟨1, 1000, 2000, 3000, 4000⟩ 32)) false none with
        state := .kSuspend }
    else none
  ready := []
  schedule := []
  left := 0
  stack := []
  mem := ()
  world := f

/-- What a `Select` leaves, if it is defined. -/
def after (f : Fabric) : Loop Unit Unit ConnOp Fabric Val :=
  ((waiting f).select.map Prod.snd).getD (waiting f)

end TwoQueues

end EfaExamples
