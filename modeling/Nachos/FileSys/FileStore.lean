import Nachos.FileSys.Crash
import Nachos.FileSys.ByteArrays
import Nachos.FileSys.DirectoryMap

/-!
# A store of named files

What the file system is for: files that are lists of bytes, found by the first
`fileNameMaxLen` bytes of their names, and handles with a position.  Nothing is
said of sectors, of the free map or of headers.
-/

namespace Nachos
namespace FileSys

open Lib LittleEndian FileSystem

/-- What users ask for.  `lost` and `torn` stop the machine after `n` sector writes of an
update or of a `WriteAt`, and start it again. -/
inductive Request
  | call (c : Call)
  | length (handle : Nat)
  | restart
  | lost (u : Update) (n : Nat)
  | torn (handle : Nat) (src : Block) (numBytes position : Int) (n : Nat)

/-- What they get. -/
inductive Answer
  | success (b : Bool)
  | count (n : Int)
  | data (n : Int) (bytes : List UInt8)
  | done

/-- The files by key, and for each handle the key and the position; a handle on a file that
has been removed has no key. -/
structure FileStore where
  files : BoundedMap (List UInt8) (List UInt8) numDirEntries
  handles : List (Option (List UInt8) × Int)

/-- The sectors a file of `n` bytes takes, with the one of its header. -/
def fileSectors (n : Nat) : Nat := 1 + (n + (sectorSize - 1)) / sectorSize

/-- A transfer on a file's bytes, for a handle at the position `p`. -/
def Transfer.onBytes (l : List UInt8) (p : Int) : Transfer → Answer × List UInt8 × Int
  | readAt numBytes position =>
    let n := OpenFile.transferred l.length numBytes position
    (.data n ((l.drop position.toNat).take n.toNat), l, p)
  | writeAt src numBytes position =>
    let n := OpenFile.transferred l.length numBytes position
    (.count n, splice l position.toNat (src.bytes n.toNat), p)
  | read numBytes =>
    let n := OpenFile.transferred l.length numBytes p
    (.data n ((l.drop p.toNat).take n.toNat), l, p + n)
  | write src numBytes =>
    let n := OpenFile.transferred l.length numBytes p
    (.count n, splice l p.toNat (src.bytes n.toNat), p + n)
  | seek position => (.done, l, position)

namespace FileStore

def empty : FileStore := ⟨BoundedMap.empty _ _ _, []⟩

/-- The sectors that the files take. -/
def used (st : FileStore) : Nat :=
  ∑ k ∈ st.files.keys, (st.files.lookup k).elim 0 fun l => fileSectors l.length

/-- There is room for a file: in the directory, and on a disk of which the system takes
five sectors. -/
def HasRoom (st : FileStore) (key : List UInt8) (size : Nat) : Prop :=
  st.files.lookup key = none ∧ st.files.keys.card < numDirEntries ∧
    5 + st.used + fileSectors size ≤ numSectors

/-- The handle once the file under `key` is gone. -/
def unlink (key : List UInt8) (h : Option (List UInt8) × Int) : Option (List UInt8) × Int :=
  if h.1 = some key then (none, h.2) else h

/-- An update of the files.  The bytes of a new file are any. -/
inductive Updates (st : FileStore) : Update → Bool → FileStore → Prop
  | created (name : CString) (size : Int) (bytes : List UInt8) :
      st.HasRoom name.key size.toNat → bytes.length = size.toNat →
      Updates st (.create name size) true { st with files := (st.files.add name.key bytes).2 }
  | refused (name : CString) (size : Int) : ¬ st.HasRoom name.key size.toNat →
      Updates st (.create name size) false st
  | removed (name : CString) : (st.files.lookup name.key).isSome = true →
      Updates st (.remove name) true
        ⟨(st.files.remove name.key).2, st.handles.map (unlink name.key)⟩
  | absent (name : CString) : st.files.lookup name.key = none →
      Updates st (.remove name) false st

/-- One request.  A machine that stops in an update has made all of it or nothing, and one
that stops in a `WriteAt` has written the beginning of the bytes. -/
inductive Step (st : FileStore) : Request → Answer → FileStore → Prop
  | updated (u : Update) (b : Bool) (st' : FileStore) : st.Updates u b st' →
      Step st (.call (.update u)) (.success b) st'
  | opened (name : CString) : (st.files.lookup name.key).isSome = true →
      Step st (.call (.open name)) (.success true)
        { st with handles := st.handles ++ [(some name.key, 0)] }
  | unknown (name : CString) : st.files.lookup name.key = none →
      Step st (.call (.open name)) (.success false) st
  | transferred (k : Nat) (tr : Transfer) (key l : List UInt8) (p : Int) :
      st.handles[k]? = some (some key, p) → st.files.lookup key = some l →
      Step st (.call (.transfer k tr)) (tr.onBytes l p).1
        ⟨st.files.set key (tr.onBytes l p).2.1,
          st.handles.set k (some key, (tr.onBytes l p).2.2)⟩
  | measured (k : Nat) (key l : List UInt8) (p : Int) :
      st.handles[k]? = some (some key, p) → st.files.lookup key = some l →
      Step st (.length k) (.count l.length) st
  | restarted : Step st .restart .done { st with handles := [] }
  | kept (u : Update) (n : Nat) : Step st (.lost u n) .done { st with handles := [] }
  | made (u : Update) (n : Nat) (st' : FileStore) : st.Updates u true st' →
      Step st (.lost u n) .done { st' with handles := [] }
  | torn (k : Nat) (src : Block) (numBytes position : Int) (n m : Nat) (key l : List UInt8)
      (p : Int) : st.handles[k]? = some (some key, p) → st.files.lookup key = some l →
      (m : Int) ≤ OpenFile.transferred l.length numBytes position →
      Step st (.torn k src numBytes position n) .done
        ⟨st.files.set key (splice l position.toNat (src.bytes m)), []⟩

/-- The runs of the store, with the requests and answers so far. -/
def system : System (FileStore × List (Request × Answer)) where
  init s := s = (empty, [])
  step s t := ∃ r a, s.1.Step r a t.1 ∧ t.2 = s.2 ++ [(r, a)]

end FileStore

end FileSys
end Nachos
