import PickleDevice.JobReader
import PickleDevice.ManagerRuns
import PickleDevice.WatchRanges

namespace PickleDevice

open ByteWords Interaction PickleDeviceManager

instance : DecidablePred Succeeded := fun ⟨request, answer⟩ => by
  cases request <;> unfold Succeeded <;> infer_instance

namespace CallTrace

/-- No `std::vector` holds `2 ^ 63` bytes. -/
def Fits (c : CallTrace) : Prop := ∀ job s bytes t, c.call = .sendJob job s →
  StateEffect.run job.getJobDescriptor s = (.ok bytes, t) → bytes.length < 2 ^ 63

variable {c : CallTrace} {m m' : PickleDeviceManager}

end CallTrace

namespace ManagerRun

variable {calls : List CallTrace} {m : PickleDeviceManager}

end ManagerRun

end PickleDevice
