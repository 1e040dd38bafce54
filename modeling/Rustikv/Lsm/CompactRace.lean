import Rustikv.Lsm.Linearizable

/-! A `compact` among writes and background flushes. It joins the pending flush, gives
`flush_handle` back and takes its other locks later, so a flush started in between may find
its memtable discarded, or add its older table over the newer one.
-/

namespace Rustikv.Lsm

open Library

/-- Calls that fit, and steps that keep the newest version of the key in front. -/
def System.undisturbed (key : String) (system : System) (action : Action) : Bool :=
  action.fits && system.keepsInFront key action

end Rustikv.Lsm
