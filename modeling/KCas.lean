import KCas.Adaptive
import KCas.Capacity
import KCas.Clients
import KCas.Contention
import KCas.Disjoint
import KCas.Effects
import KCas.HelpOver
import KCas.Linearizable
import KCas.LockFree
import KCas.Moments
import KCas.Pool
import KCas.Prefix
import KCas.Progress
import KCas.Provenance
import KCas.Repeated
import KCas.Reserved
import KCas.Reuse
import KCas.Rollover
import KCas.Sequential
import KCas.Undone
import KCas.Weak
import KCas.Wrapper
import KCas.Library.Packing
import KCas.Library.Run
