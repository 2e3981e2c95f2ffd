import LoomX.LinkedStack
import LoomX.Xomp.SectionTransfer

namespace LoomX.Xomp

open LinkedStack

/-- An array section as the runtime is given it: an entry of each array for every dimension. -/
structure ArraySection where
  nDim : Nat
  typeSize : Int
  size : List Int
  offset : List Int
  dimSize : List Int
  size_length : size.length = nDim
  offset_length : offset.length = nDim
  dimSize_length : dimSize.length = nDim
  typeSize_pos : 0 < typeSize

/-- `XOMP_mapped_variable`, without the directions to copy in. -/
structure MappedVariable extends ArraySection where
  address : Nat
  devAddress : Nat

/-- A variable that the environment itself maps. -/
structure NewVariable extends MappedVariable where
  copyTo : Bool
  copyFrom : Bool

/-- The arguments of `xomp_deviceDataEnvironmentPrepareVariable`. -/
structure Request extends ArraySection where
  address : Nat
  copyInto : Bool
  copyBack : Bool

def Request.mappedAt (r : Request) (devAddress : Nat) : NewVariable :=
  { r with devAddress, copyTo := r.copyInto, copyFrom := r.copyBack }

/-- A device data environment; its links are those of the list it stands in. -/
structure DDE where
  devID : Nat
  newVariables : List NewVariable
  inheritedVariables : List MappedVariable

/-- What the calls for one device read and write. -/
structure Runtime where
  dde : Links DDE
  /-- The device memory that is not freed yet. -/
  allocated : List Nat
  /-- How often `cudaMalloc` was called. -/
  mallocs : Nat
  host : Int → UInt8
  device : Int → UInt8

def xompMaxMappedVars : Nat := 256

/-- A copy has arrays of its own; the directions to copy in are not inherited. -/
def copyMappedVariable (src : MappedVariable) : MappedVariable := src

/-- Both the new and the inherited variables of the parent are inherited. -/
def inheritedFrom : Option DDE → List MappedVariable
  | none => []
  | some parent =>
    (parent.newVariables.map fun v => copyMappedVariable v.toMappedVariable) ++
      parent.inheritedVariables.map copyMappedVariable

def xompDeviceDataEnvironmentEnter (devID : Nat) (s : Runtime) : Option Runtime := do
  let dde ← s.dde.append ⟨devID, [], inheritedFrom s.dde.last⟩
  some { s with dde }

/-- Whether the sizes of a mapped variable are the given ones, which are read as far as the mapped
variable has dimensions. -/
def sizesMatch (typeSize : Int) : List Int → List Int → Option Bool
  | [], _ => some true
  | _ :: _, [] => none
  | m :: ms, n :: ns => do
    let mapped ← int (m * typeSize)
    let given ← int (n * typeSize)
    let rest ← sizesMatch typeSize ms ns
    some (decide (mapped = given) && rest)

/-- The loop over the inherited variables, with the device address found so far. -/
def scanInherited (address : Nat) (typeSize : Int) (size : List Int) :
    List MappedVariable → Nat → Option Nat
  | [], devAddress => some devAddress
  | v :: vs, devAddress =>
    if v.address = address then do
      let matched ← sizesMatch typeSize v.size size
      if matched then some v.devAddress else scanInherited address typeSize size vs v.devAddress
    else scanInherited address typeSize size vs devAddress

/-- The device address is 0 where the variable is not mapped. -/
def xompDeviceDataEnvironmentGetInheritedVariable (s : Runtime) (address : Nat) (typeSize : Int)
    (size : List Int) : Option Nat :=
  if address = 0 then none
  else do
    let tail ← s.dde.last
    scanInherited address typeSize size tail.inheritedVariables 0

def xompDeviceDataEnvironmentAddVariable (s : Runtime) (v : NewVariable) : Option Runtime := do
  let tail ← s.dde.last
  if tail.newVariables.length < xompMaxMappedVars then do
    let dde ← s.dde.setLast { tail with newVariables := tail.newVariables ++ [v] }
    some { s with dde }
  else none

def ArraySection.scatter (a : ArraySection) (dest src : Int → UInt8) : Option (Int → UInt8) :=
  xompMemScatterHostToDevice (a.size.getD · 0) (a.offset.getD · 0) (a.dimSize.getD · 0) a.typeSize
    a.nDim dest src

def ArraySection.gather (a : ArraySection) (dest src : Int → UInt8) : Option (Int → UInt8) :=
  xompMemGatherDeviceToHost (a.size.getD · 0) (a.offset.getD · 0) (a.dimSize.getD · 0) a.typeSize
    a.nDim dest src

/-- The number of elements of a section, multiplied up in an `int`. -/
def ArraySection.devSize (a : ArraySection) : Option Int :=
  a.size.foldlM (fun devSize n => int (devSize * n)) 1

section
variable (cudaMalloc : Nat → List Nat → Nat → Option Nat)

def xompDeviceMalloc (size : Nat) (s : Runtime) : Option (Nat × Runtime) := do
  let devPtr ← cudaMalloc s.mallocs s.allocated size
  if size ≠ 0 then
    some (devPtr, { s with allocated := devPtr :: s.allocated, mallocs := s.mallocs + 1 })
  else none

/-- A variable that is not inherited is allocated and recorded, and copied to the device if asked
for. -/
def mapNewVariable (r : Request) (s : Runtime) : Option (Nat × Runtime) := do
  let devSize ← r.devSize
  let bytes ← int (devSize * r.typeSize)
  -- the parameter of the allocation is a `size_t`
  let (p, s) ← xompDeviceMalloc cudaMalloc (bytes % 2 ^ 64).toNat s
  let s ← xompDeviceDataEnvironmentAddVariable s (r.mappedAt p)
  if r.copyInto then do
    let buffer ← r.scatter (fun a => s.device (p + a)) fun a => s.host (r.address + a)
    some (p, { s with device := fun a => buffer (a - p) })
  else some (p, s)

def xompDeviceDataEnvironmentPrepareVariable (r : Request) (s : Runtime) :
    Option (Nat × Runtime) := do
  let inherited ← xompDeviceDataEnvironmentGetInheritedVariable s r.address r.typeSize r.size
  let (p, s) ← (if inherited = 0 then mapNewVariable cudaMalloc r s else some (inherited, s))
  if p ≠ 0 then some (p, s) else none

end

def xompFreeDevice (devPtr : Nat) (s : Runtime) : Runtime :=
  { s with allocated := s.allocated.erase devPtr }

/-- A variable of the environment is copied back if asked for, and freed. -/
def unmapVariable (s : Runtime) (v : NewVariable) : Option Runtime :=
  if v.copyFrom then do
    let array ← v.gather (fun a => s.host (v.address + a)) fun a => s.device (v.devAddress + a)
    some (xompFreeDevice v.devAddress { s with host := fun a => array (a - v.address) })
  else some (xompFreeDevice v.devAddress s)

def xompDeviceDataEnvironmentExit (s : Runtime) : Option Runtime := do
  let tail ← s.dde.last
  let s ← tail.newVariables.foldlM unmapVariable s
  let dde ← s.dde.dropLast
  some { s with dde }

/-- A call for the device. -/
inductive Call where
  | enter
  | prepare (r : Request)
  | exit

/-- The runtime before any environment is entered. -/
def Runtime.start (host device : Int → UInt8) : Runtime := ⟨Links.empty, [], 0, host, device⟩

end LoomX.Xomp
