import Mathlib.Data.BitVec
import Mathlib.Tactic.SplitIfs

/-!
# Loading a file (`util.c`)

`LoadWasmFile` measures a file with `ftell`, allocates that much and reads it in
one `fread`. The length goes from `ftell`'s signed long through 32 bits into
the caller's 64.
-/

namespace Vespa

/-- The course of a call: what the file holds, if it can be opened; whether `ftell`
and `malloc` succeed; how many bytes `fread` gets before an error. -/
structure FileCall where
  fopen : Option (List UInt8)
  ftell : Bool
  malloc : Bool
  fread : Nat
deriving DecidableEq, Repr

inductive FileAction where
  | fopen
  | malloc (data : List UInt8)
  | fclose
deriving DecidableEq, Repr

/-- What a call returns, leaves in `*bytes` and `*nbytes`, and did. -/
structure LoadedFile where
  result : Bool
  bytes : Option (List UInt8)
  nbytes : BitVec 64
  actions : List FileAction
deriving DecidableEq, Repr

/-- `(uint32_t)ftell(file)` -/
def FileCall.totalSize (f : FileCall) (content : List UInt8) : BitVec 32 :=
  BitVec.ofInt 32 (if f.ftell then content.length else -1)

def loadWasmFile (f : FileCall) (bytes : Option (List UInt8)) (nbytes : BitVec 64) : LoadedFile :=
  match f.fopen with
  | none => ⟨false, bytes, nbytes, []⟩
  | some content =>
    let total_size := f.totalSize content
    if !f.malloc then ⟨false, bytes, nbytes, [.fopen, .fclose]⟩
    else
      let data := content.take (min total_size.toNat f.fread)
      -- the buffer of a failed read is left where it is
      if data.length ≠ total_size.toNat then
        ⟨false, bytes, nbytes, [.fopen, .malloc data, .fclose]⟩
      else ⟨true, some data, total_size.setWidth 64, [.fopen, .malloc data, .fclose]⟩

def FileAction.buffer? : FileAction → Option (List UInt8)
  | .malloc data => some data
  | _ => none

def LoadedFile.buffers (l : LoadedFile) : List (List UInt8) :=
  l.actions.filterMap FileAction.buffer?

/-! ## The courses of a call -/

section
variable {f : FileCall} {bytes : Option (List UInt8)} {nbytes : BitVec 64}

/-- What is left of a length in 32 bits, and of `ftell`'s -1. -/
theorem FileCall.toNat_totalSize (f : FileCall) (content : List UInt8) :
    (f.totalSize content).toNat
      = if f.ftell then content.length % 2 ^ 32 else 2 ^ 32 - 1 := by
  unfold totalSize
  split_ifs
  · rw [BitVec.ofInt_natCast, BitVec.toNat_ofNat]
  · rfl

/-- **The courses of a call**, one for each label it leaves by. -/
inductive FileCourse (f : FileCall) (bytes : Option (List UInt8)) (nbytes : BitVec 64) :
    LoadedFile → Prop where
  | notOpened (hopen : f.fopen = none) : FileCourse f bytes nbytes ⟨false, bytes, nbytes, []⟩
  | noMemory {content : List UInt8} (hopen : f.fopen = some content) (hmalloc : f.malloc = false) :
      FileCourse f bytes nbytes ⟨false, bytes, nbytes, [.fopen, .fclose]⟩
  | short {content data : List UInt8} (hopen : f.fopen = some content) (hmalloc : f.malloc = true)
      (hlt : min content.length f.fread < (f.totalSize content).toNat) :
      FileCourse f bytes nbytes ⟨false, bytes, nbytes, [.fopen, .malloc data, .fclose]⟩
  | read {content data : List UInt8} (hopen : f.fopen = some content) (hmalloc : f.malloc = true)
      (hle : (f.totalSize content).toNat ≤ min content.length f.fread)
      (hdata : data = content.take (f.totalSize content).toNat) :
      FileCourse f bytes nbytes ⟨true, some data, (f.totalSize content).setWidth 64,
        [.fopen, .malloc data, .fclose]⟩

theorem fileCourse (f : FileCall) (bytes : Option (List UInt8)) (nbytes : BitVec 64) :
    FileCourse f bytes nbytes (loadWasmFile f bytes nbytes) := by
  unfold loadWasmFile
  cases hopen : f.fopen with
  | none => exact .notOpened hopen
  | some content =>
      dsimp only
      cases hmalloc : f.malloc with
      | false => exact .noMemory hopen hmalloc
      | true =>
          rw [Bool.not_true, if_neg Bool.false_ne_true, List.length_take]
          split_ifs with hlen
          · exact .short hopen hmalloc (by omega)
          · have hle : (f.totalSize content).toNat ≤ f.fread := by omega
            exact .read hopen hmalloc (by omega) (by rw [Nat.min_eq_left hle])

/-- **A loaded file's buffer is the caller's**, and the only one. -/
theorem loadWasmFile_cases (f : FileCall) (bytes : Option (List UInt8)) (nbytes : BitVec 64) :
    ((loadWasmFile f bytes nbytes).result = false
        ∧ (loadWasmFile f bytes nbytes).bytes = bytes
        ∧ (loadWasmFile f bytes nbytes).nbytes = nbytes)
      ∨ ∃ data, (loadWasmFile f bytes nbytes).result = true
        ∧ (loadWasmFile f bytes nbytes).bytes = some data
        ∧ (loadWasmFile f bytes nbytes).buffers = [data] := by
  have hcourse := fileCourse f bytes nbytes
  generalize loadWasmFile f bytes nbytes = l at hcourse ⊢
  cases hcourse with
  | notOpened | noMemory | short => exact .inl ⟨rfl, rfl, rfl⟩
  | read => exact .inr ⟨_, rfl, rfl, rfl⟩

end

end Vespa
