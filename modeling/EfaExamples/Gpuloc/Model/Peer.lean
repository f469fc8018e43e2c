import EfaExamples.Gpuloc.Model.Affinity
/-!
# Where a `Peer` puts itself

The constructor of `Peer` in `main.cc`, as far as it reads the table of
`GPUloc`: it takes the entry of its local rank, and of that the core and the
NIC of its local rank.
-/

namespace EfaExamples

/-- What a `Peer` takes from the table. -/
structure Placement where
  /-- the argument of `cudaSetDevice` -/
  device : ℕ
  /-- the argument of `Taskset::Set`, for which `sched_setaffinity` takes the number of a processor -/
  cpu : ℕ
  /-- the `fi_info` that `net_` is opened with -/
  efa : ℕ
  deriving DecidableEq, Repr

/-- The lookups of `Peer::Peer`; `none` if one is out of range. -/
def Peer.place (affinity : List GPUAffinity) (localRank : ℕ) : Option Placement := do
  let affinity ← affinity[localRank]?
  let core ← affinity.cores[localRank]?
  let efa ← affinity.efas[localRank]?
  return { device := localRank, cpu := core.logicalIndex, efa := efa.2 }

end EfaExamples
