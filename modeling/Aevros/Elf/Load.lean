import Aevros.Paging.Bytes
import Aevros.Paging.Spaces

/-! # Loading a program

`elf_load_segs` enters a fresh frame for every page of a loadable segment and fills it through a
window. Which bytes go where depends on the file alone.
-/

namespace Aevros

open Machine

/-- What is found at the addresses of the kernel, the file at `hdr` among it. -/
structure ElfFile where
  hdr : Word
  bytes : Word → Byte

structure Phdr where
  type : Word
  offset : Word
  virAddress : Word
  fileSize : Word
  memSize : Word
  deriving DecidableEq

def ptLoad : Word := 1

def pageSize : Word := 4096

namespace ElfFile

variable (file : ElfFile)

def read32 (p : Word) : Word :=
  file.bytes (p + 3) ++ file.bytes (p + 2) ++ file.bytes (p + 1) ++ file.bytes p

def read16 (p : Word) : BitVec 16 := file.bytes (p + 1) ++ file.bytes p

def elfProgHeaders : Word := file.hdr + file.read32 (file.hdr + 28)

def phdr (i : ℕ) : Phdr :=
  let p := file.elfProgHeaders + BitVec.ofNat 32 (32 * i)
  { type := file.read32 p
    offset := file.read32 (p + 4)
    virAddress := file.read32 (p + 12)
    fileSize := file.read32 (p + 16)
    memSize := file.read32 (p + 20) }

def phdrs : List Phdr := (List.range (file.read16 (file.hdr + 44)).toNat).map file.phdr

end ElfFile

def pageAlignDown (x : Word) : Word := x &&& ~~~(pageSize - 1)

def pageAlignUp (y : Word) : Word := (y + (pageSize - 1)) &&& ~~~(pageSize - 1)

def pageAddrs (start stop : Word) : List Word :=
  (List.range ((stop.toNat - start.toNat) / 4096)).map fun i => start + BitVec.ofNat 32 (4096 * i)

namespace Phdr

variable (ph : Phdr)

def pages : List Word :=
  pageAddrs (pageAlignDown ph.virAddress) (pageAlignUp (ph.virAddress + ph.memSize))

def copyStart (addr : Word) : Word := if addr < ph.virAddress then ph.virAddress - addr else 0

def copyBytes (addr fileRemaining : Word) : Word :=
  if 0 < fileRemaining ∧ ph.copyStart addr < pageSize then
    let copyBytes := pageSize - ph.copyStart addr
    if fileRemaining < copyBytes then fileRemaining else copyBytes
  else 0

end Phdr

def ElfFile.copies (file : ElfFile) (srcOff copyStart copyBytes : Word) : List (Fin 4096 × Byte) :=
  (List.range copyBytes.toNat).map fun b =>
    (Fin.ofNat 4096 (copyStart.toNat + b), file.bytes (file.hdr + srcOff + BitVec.ofNat 32 b))

def zeros : List (Fin 4096 × Byte) := (List.finRange 4096).map fun b => (b, 0)

def userFlags : Word := pagePresent ||| pageWrite ||| pageUser

def fillPage (s : Machine) (phys : Word) (copies : List (Fin 4096 × Byte)) : Option Machine := do
  let s ← mapPage s tempMapVirt phys (pagePresent ||| pageWrite)
  let s ← s.storeBytes tempMapVirt zeros
  let s ← s.storeBytes tempMapVirt copies
  unmap s tempMapVirt

def loadPages (file : ElfFile) (targetCr3 : Word) (ph : Phdr) :
    List Word → Word → Word → Machine → Option (Bool × Machine)
  | [], _, _, s => some (true, s)
  | addr :: addrs, srcOff, fileRemaining, s => do
    let (phys, s) := pmmAlloc s
    if phys = 0 then return (false, s)
    -- whether the page could be entered is not looked at
    let (_, s) ← mapPageInDirectory s targetCr3 addr phys userFlags
    let copyBytes := ph.copyBytes addr fileRemaining
    let s ← fillPage s phys (file.copies srcOff (ph.copyStart addr) copyBytes)
    loadPages file targetCr3 ph addrs (srcOff + copyBytes) (fileRemaining - copyBytes) s

def loadSegs (file : ElfFile) (targetCr3 : Word) : List Phdr → Machine → Option (Bool × Machine)
  | [], s => some (true, s)
  | ph :: phs, s =>
    if ph.type ≠ ptLoad then loadSegs file targetCr3 phs s
    else do
      let (ok, s) ← loadPages file targetCr3 ph ph.pages ph.offset ph.fileSize s
      if ok then loadSegs file targetCr3 phs s else return (false, s)

def elfLoadSegs (file : ElfFile) (targetCr3 : Word) (s : Machine) : Option (Bool × Machine) :=
  if file.hdr = 0 ∨ targetCr3 = 0 then some (false, s)
  else if file.elfProgHeaders = 0 then some (false, s)
  else loadSegs file targetCr3 file.phdrs s

end Aevros
