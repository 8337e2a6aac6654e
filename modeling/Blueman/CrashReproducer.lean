import Blueman.RunLockStep

/-!
# The record of a run that crashes

Recording, consuming and saving happen in three processes. While the target runs
outside the hook, what the interceptor has recorded is what the target was given,
and so is the file that the parent saves when the target crashes there.
-/

namespace Blueman.CrashReproducer

open BlePacket MutatorBuild PacketRecord RunOutcome Interceptor FuzzRun LockStep RunLockStep

set_option autoImplicit false

end Blueman.CrashReproducer
