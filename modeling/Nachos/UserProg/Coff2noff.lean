import Nachos.UserProg.Noff

/-!
# From COFF to NOFF

The program `coff2noff`, as a function from the bytes of the COFF file to those of
the NOFF file or the message it exits with.
-/

namespace Nachos
namespace UserProg

open Lib LittleEndian FileSys

/-- The fields of `struct scnhdr` that are used.  `sName` is the string in
`s_name`. -/
structure Scnhdr where
  sName : List Char
  sPaddr : Int
  sSize : Int
  sScnptr : Int

/-- `MIPSELMAGIC` -/
abbrev mipselMagic : Nat := 0x0162

/-- `OMAGIC` -/
abbrev oMagic : Nat := 0o407

/-- `sizeof (struct filehdr)` -/
abbrev filehdrSize : Nat := 20

/-- `sizeof (struct aouthdr)` -/
abbrev aouthdrSize : Nat := 56

/-- `sizeof (struct scnhdr)` -/
abbrev scnhdrSize : Nat := 40

/-- The `unsigned short` at byte `off`. -/
def short (b : Block) (off : Nat) : Nat := (b off).toNat + 256 * (b (off + 1)).toNat

/-- A C string in at most seven bytes, since `s_name[7] = 0`. -/
def cString (b : Block) (off : Nat) : List Char :=
  ((List.range 7).map fun k => Char.ofNat (b (off + k)).toNat).takeWhile (· ≠ Char.ofNat 0)

namespace Scnhdr

/-- The section header at word `w`. -/
def ofBlock (b : Block) (w : Nat) : Scnhdr where
  sName := cString b (4 * w)
  sPaddr := b.int (w + 2)
  sSize := b.int (w + 4)
  sScnptr := b.int (w + 5)

end Scnhdr

/-- `Read`: `nBytes` bytes at `pos`, and the position behind them. -/
def read (coff : List UInt8) (pos : Nat) (nBytes : Int) : Except String (List UInt8 × Nat) :=
  let bytes := if nBytes < 0 then [] else (coff.drop pos).take nBytes.toNat
  let count : Int := if nBytes < 0 then -1 else bytes.length
  if count ≠ nBytes then throw "File is too short\n" else pure (bytes, pos + bytes.length)

/-- `lseek(fdIn, offset, SEEK_SET)`, which leaves the position alone when it fails. -/
def lseek (pos : Nat) (offset : Int) : Nat := if offset < 0 then pos else offset.toNat

/-- The section headers of a file. -/
def sections (coff : List UInt8) : List Scnhdr :=
  let b := fileBlock coff fun _ => 0
  (List.range (short b 2)).map fun i =>
    .ofBlock b ((filehdrSize + aouthdrSize + scnhdrSize * i) / 4)

/-- The local variables of `main` in the loop over the sections.  `body` is what has been
written behind the place for the header, and `pos` is the position in the COFF
file. -/
structure Loop where
  noffH : NoffHeader
  inNoffFile : Int
  body : List UInt8
  pos : Nat

namespace Loop

/-- Copying the contents of a section, which the segment returned describes. -/
def copy (coff : List UInt8) (l : Loop) (s : Scnhdr) : Except String (Segment × Loop) := do
  let segment : Segment := ⟨s.sPaddr, l.inNoffFile, s.sSize⟩
  let (buffer, pos) ← read coff (lseek l.pos s.sScnptr) s.sSize
  return (segment, { l with
    inNoffFile := wrap (l.inNoffFile + s.sSize)
    body := l.body ++ buffer
    pos })

/-- One round of the loop. -/
def copySection (coff : List UInt8) (l : Loop) (s : Scnhdr) : Except String Loop :=
  if s.sSize = 0 then pure l
  else if s.sName = ".text".toList then do
    let (code, l) ← l.copy coff s
    return { l with noffH := { l.noffH with code } }
  else if s.sName = ".data".toList ∨ s.sName = ".rdata".toList then
    if l.noffH.initData.size ≠ 0 then throw "Can't handle both data and rdata\n"
    else do
      let (initData, l) ← l.copy coff s
      return { l with noffH := { l.noffH with initData } }
  else if s.sName = ".bss".toList ∨ s.sName = ".sbss".toList then
    let uninitData := l.noffH.uninitData
    if uninitData.size ≠ 0 then
      if s.sPaddr > wrap (uninitData.virtualAddr + uninitData.size) then
        throw "Can't handle both bss and sbss\n"
      else pure { l with noffH := { l.noffH with
        uninitData := { uninitData with size := wrap (uninitData.size + s.sSize) } } }
    else pure { l with noffH := { l.noffH with uninitData := ⟨s.sPaddr, -1, s.sSize⟩ } }
  else if s.sName = ".drop".toList then pure l
  else if s.sName.take 6 = ".debug".toList then pure l
  else throw ("Unknown segment type: " ++ String.ofList s.sName ++ "\n")

end Loop

/-- The header in case that not all the segments are defined in the file. -/
def newHeader (junk : Block) : NoffHeader :=
  let noffH := NoffHeader.ofBlock junk
  { noffMagic := noffMagicNumber
    code := { noffH.code with size := 0 }
    initData := { noffH.initData with size := 0 }
    uninitData := { noffH.uninitData with size := 0 } }

/-- `main`.  What is not initialised of the header is what `junk` holds. -/
def coff2noff (junk : Block) (coff : List UInt8) : Except String (List UInt8) := do
  let b := fileBlock coff fun _ => 0
  let (_, pos) ← read coff 0 filehdrSize
  if short b 0 ≠ mipselMagic then throw "File is not a MIPSEL COFF file\n"
  else
    let (_, pos) ← read coff pos aouthdrSize
    if short b filehdrSize ≠ oMagic then throw "File is not a OMAGIC file\n"
    else
      let numsections := short b 2
      let (_, pos) ← read coff pos (numsections * scnhdrSize)
      let l ← (sections coff).foldlM (Loop.copySection coff)
        { noffH := newHeader junk, inNoffFile := headerSize, body := [], pos }
      return l.noffH.bytes ++ l.body

end UserProg
end Nachos
