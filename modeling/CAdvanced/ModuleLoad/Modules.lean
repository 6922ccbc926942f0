import CAdvanced.ModuleLoad.Kernel

/-!
# ModuleLoad — The modules

The init and exit functions of `mybuffer.c`, `mybuffer_sync.c`, `openclose.c` and `hello.c`,
each with its ladder of labels: a label is the code from it to the end of the function, so
that it falls through by calling the next one. Assignments that hold no resource (`owner`,
`ops`, `length`, the locks and wait queues) are left out.
-/

namespace CAdvanced.ModuleLoad

open CAdvanced.Sequential CAdvanced.Sequential.Code

/-! ## mybuffer -/

namespace Mybuffer

def freeStruct : Kernel Int := do
  kfree (← read (·.buffer))
  return 0

def freeBuffer : Kernel Int := do
  follow (← read (·.buffer))
  kfree (← read (·.bufferBuffer))
  freeStruct

def freeDeviceNumber : Kernel Int := do
  unregisterChrdevRegion 1
  freeBuffer

def freeCharacterDevice : Kernel Int := do
  kobjectPut (← read (·.driverObject))
  freeDeviceNumber

/-- `ModInit`. -/
def modInit (k : Answers) : Kernel Int := do
  let buffer ← kmalloc k
  write ({ · with buffer })
  if belowZero buffer then freeStruct else do
  let bufferBuffer ← kcalloc k
  follow buffer
  write ({ · with bufferBuffer })
  if belowZero bufferBuffer then freeBuffer else do
  if (← allocChrdevRegion k 1) < 0 then return -eio else do
  let driverObject ← cdevAlloc k
  write ({ · with driverObject })
  if driverObject = .null then freeDeviceNumber else do
  if (← cdevAdd k driverObject) ≠ 0 then freeCharacterDevice else do
  let driverClass ← classCreate k
  write ({ · with driverClass })
  let _deviceObject ← deviceCreate k driverClass 0
  return 0

/-- `ModExit`. -/
def modExit : Kernel Unit := do
  follow (← read (·.buffer))
  kfree (← read (·.bufferBuffer))
  kfree (← read (·.buffer))
  deviceDestroy (← read (·.driverClass)) 0
  classDestroy (← read (·.driverClass))
  cdevDel (← read (·.driverObject))
  unregisterChrdevRegion 1

end Mybuffer

/-! ## mybuffer_sync -/

namespace MybufferSync

def freeBuffer : Kernel Int := do
  kfree (← read (·.kernelmem))
  return -eio

def freeDeviceNumber : Kernel Int := do
  unregisterChrdevRegion 1
  freeBuffer

def freeCdev : Kernel Int := do
  kobjectPut (← read (·.driverObject))
  freeDeviceNumber

/-- `template_init`. -/
def templateInit (k : Answers) : Kernel Int := do
  let kernelmem ← kcalloc k
  write ({ · with kernelmem })
  if belowZero kernelmem then freeBuffer else do
  if (← allocChrdevRegion k 1) < 0 then return -eio else do
  let driverObject ← cdevAlloc k
  write ({ · with driverObject })
  if driverObject = .null then freeDeviceNumber else do
  if (← cdevAdd k driverObject) ≠ 0 then freeCdev else do
  let driverClass ← classCreate k
  write ({ · with driverClass })
  if isErr driverClass then freeCdev else do
  let _deviceObject ← deviceCreate k driverClass 0
  return 0

/-- `template_exit`. -/
def templateExit : Kernel Unit := do
  deviceDestroy (← read (·.driverClass)) 0
  classDestroy (← read (·.driverClass))
  cdevDel (← read (·.driverObject))
  unregisterChrdevRegion 1

end MybufferSync

/-! ## openclose -/

namespace Openclose

/-- `MAX_DEVICES`. -/
def maxDevices : Nat := 257

def freeDeviceNumber : Kernel Int := do
  unregisterChrdevRegion maxDevices
  return 0

def freeCharacterDevice : Kernel Int := do
  kobjectPut (← read (·.driverObject))
  freeDeviceNumber

/-- `ModInit`. -/
def modInit (k : Answers) : Kernel Int := do
  if (← allocChrdevRegion k 257) < 0 then return -eio else do
  let driverObject ← cdevAlloc k
  write ({ · with driverObject })
  if driverObject = .null then freeDeviceNumber else do
  if (← cdevAdd k driverObject) ≠ 0 then freeCharacterDevice else do
  let driverClass ← classCreate k
  write ({ · with driverClass })
  forUpTo maxDevices fun i => do
    let _ ← deviceCreate k driverClass i
  return 0

/-- `ModExit`. -/
def modExit : Kernel Unit := do
  forUpTo maxDevices fun i => do
    deviceDestroy (← read (·.driverClass)) i
  classDestroy (← read (·.driverClass))
  cdevDel (← read (·.driverObject))
  unregisterChrdevRegion 1

end Openclose

/-! ## hello -/

namespace Hello

def freeClass : Kernel Int := do
  classDestroy (← read (·.driverClass))
  return -eio

def freeDeviceNumber : Kernel Int := do
  unregisterChrdevRegion 1
  freeClass

def freeCharacterDevice : Kernel Int := do
  kobjectPut (← read (·.driverObject))
  freeDeviceNumber

/-- `ModInit`. -/
def modInit (k : Answers) : Kernel Int := do
  if (← allocChrdevRegion k 1) < 0 then return -eio else do
  let driverObject ← cdevAlloc k
  write ({ · with driverObject })
  if driverObject = .null then freeDeviceNumber else do
  if (← cdevAdd k driverObject) ≠ 0 then freeCharacterDevice else do
  let driverClass ← classCreate k
  write ({ · with driverClass })
  if isErr driverClass then freeClass else do
  let deviceObject ← deviceCreate k driverClass 0
  if isErr deviceObject then freeDeviceNumber else do
  return 0

/-- `ModExit`. -/
def modExit : Kernel Unit := do
  deviceDestroy (← read (·.driverClass)) 0
  classDestroy (← read (·.driverClass))
  cdevDel (← read (·.driverObject))
  unregisterChrdevRegion 1

end Hello

end CAdvanced.ModuleLoad
