import Vespa.SandboxLedger

/-!
# Is a file loaded whole?

`LoadsWhole` asks that `LoadWasmFile` gives its caller all of a file or changes
nothing and keeps nothing, and that `NewSandbox` hands the loader no other bytes
than the file's.

The size the file is compared with is the one left in 32 bits. A longer file is
taken for one of its length less a multiple of 2³², and read that far; an error
of `ftell` for a file of 2³² - 1 bytes. A read that falls short of the size
leaves the buffer behind.
-/

namespace Vespa

/-! ## The law -/

structure LoadsWhole (f : FileCall) (bytes : Option (List UInt8)) (nbytes : BitVec 64) : Prop where
  loaded : (loadWasmFile f bytes nbytes).result = true →
    ∃ content, f.fopen = some content ∧ (loadWasmFile f bytes nbytes).bytes = some content
      ∧ (loadWasmFile f bytes nbytes).nbytes.toNat = content.length
  failed : (loadWasmFile f bytes nbytes).result = false →
    (loadWasmFile f bytes nbytes).bytes = bytes ∧ (loadWasmFile f bytes nbytes).nbytes = nbytes
      ∧ (loadWasmFile f bytes nbytes).buffers = []
  closed : (loadWasmFile f bytes nbytes).actions.count .fopen
    = (loadWasmFile f bytes nbytes).actions.count .fclose
  handed : ∀ (R : Wamr) (c : SandboxCall R), c.file = f →
    ∀ wasm, c.st.loadWasmFile c.filename = some wasm → f.fopen = some wasm

/-- The file cannot be opened or its buffer not allocated, or it is read to its end and
its length is what `ftell` is taken to say. -/
def FileCall.ReadsWhole (f : FileCall) : Prop :=
  f.fopen = none ∨ f.malloc = false ∨ ∃ content, f.fopen = some content
    ∧ content.length ≤ f.fread
    ∧ if f.ftell then content.length < 2 ^ 32 else content.length = 2 ^ 32 - 1

variable {f : FileCall}

/-- The size is the file's exactly where 32 bits hold the length, or `ftell`'s -1
happens to be it. -/
theorem toNat_totalSize_eq_length_iff {content : List UInt8} :
    (f.totalSize content).toNat = content.length ↔
      if f.ftell then content.length < 2 ^ 32 else content.length = 2 ^ 32 - 1 := by
  rw [f.toNat_totalSize]
  split_ifs
  · omega
  · exact eq_comm

theorem loadWasmFile_closed (f : FileCall) (bytes : Option (List UInt8)) (nbytes : BitVec 64) :
    (loadWasmFile f bytes nbytes).actions.count .fopen
      = (loadWasmFile f bytes nbytes).actions.count .fclose := by
  have hcourse := fileCourse f bytes nbytes
  generalize loadWasmFile f bytes nbytes = l at hcourse ⊢
  cases hcourse with
  | notOpened | noMemory => rfl
  | short | read => simp

/-- Where such a file is read from, all of it is there and its size is its length. -/
theorem FileCall.ReadsWhole.size {content : List UInt8} (h : f.ReadsWhole)
    (hopen : f.fopen = some content) (hmalloc : f.malloc = true) :
    content.length ≤ f.fread ∧ (f.totalSize content).toNat = content.length := by
  rcases h with hnone | hfalse | ⟨content', hopen', hread, hlen⟩
  · rw [hopen] at hnone
    cases hnone
  · rw [hmalloc] at hfalse
    cases hfalse
  · obtain rfl := Option.some.inj (hopen.symm.trans hopen')
    exact ⟨hread, toNat_totalSize_eq_length_iff.mpr hlen⟩

/-- A file that is read whole is the caller's, or nothing is. -/
theorem loadWasmFile_of_readsWhole (h : f.ReadsWhole) (bytes : Option (List UInt8))
    (nbytes : BitVec 64) :
    ((loadWasmFile f bytes nbytes).result = false
        ∧ (loadWasmFile f bytes nbytes).bytes = bytes
        ∧ (loadWasmFile f bytes nbytes).nbytes = nbytes
        ∧ (loadWasmFile f bytes nbytes).buffers = [])
      ∨ ∃ content, f.fopen = some content
        ∧ (loadWasmFile f bytes nbytes).result = true
        ∧ (loadWasmFile f bytes nbytes).bytes = some content
        ∧ (loadWasmFile f bytes nbytes).nbytes.toNat = content.length := by
  have hcourse := fileCourse f bytes nbytes
  generalize loadWasmFile f bytes nbytes = l at hcourse ⊢
  cases hcourse with
  | notOpened | noMemory => exact .inl ⟨rfl, rfl, rfl, rfl⟩
  | short hopen hmalloc hlt =>
      obtain ⟨hread, hlen⟩ := h.size hopen hmalloc
      omega
  | @read content data hopen hmalloc hle hdata =>
      obtain ⟨-, hlen⟩ := h.size hopen hmalloc
      refine .inr ⟨content, hopen, rfl, ?_, ?_⟩
      · rw [hdata, hlen, List.take_length]
      · rw [← hlen]
        exact BitVec.toNat_setWidth_of_le (by decide)

/-- `NewSandbox` has the bytes of a file that is read whole, or none. -/
theorem handed_of_readsWhole {R : Wamr} {c : SandboxCall R} {wasm : List UInt8}
    (h : c.file.ReadsWhole) (hwasm : c.st.loadWasmFile c.filename = some wasm) :
    c.file.fopen = some wasm := by
  rcases loadWasmFile_of_readsWhole h none 0 with ⟨hfalse, -⟩ | ⟨content, hopen, htrue, hl, -⟩
  · rw [SandboxCall.st_of_failed hfalse] at hwasm
    cases hwasm
  · rw [SandboxCall.st_of_loaded htrue] at hwasm
    exact hopen.trans (hl.symm.trans hwasm)

/-- **When a file is loaded whole or not at all.** -/
theorem loadsWhole_iff (f : FileCall) (bytes : Option (List UInt8)) (nbytes : BitVec 64) :
    LoadsWhole f bytes nbytes ↔ f.ReadsWhole := by
  constructor
  · rintro ⟨hloaded, hfailed, -, -⟩
    have hcourse := fileCourse f bytes nbytes
    generalize loadWasmFile f bytes nbytes = l at hcourse hloaded hfailed
    cases hcourse with
    | notOpened hopen => exact .inl hopen
    | noMemory hopen hmalloc => exact .inr (.inl hmalloc)
    | short => cases (hfailed rfl).2.2
    | @read content data hopen hmalloc hle hdata =>
        obtain ⟨content', hopen', -, hlen⟩ := hloaded rfl
        obtain rfl := Option.some.inj (hopen.symm.trans hopen')
        rw [BitVec.toNat_setWidth_of_le (by decide)] at hlen
        exact .inr (.inr ⟨content, hopen, by omega, toNat_totalSize_eq_length_iff.mp hlen⟩)
  · intro h
    refine ⟨fun htrue => ?_, fun hfalse => ?_, loadWasmFile_closed f bytes nbytes, ?_⟩
    · rcases loadWasmFile_of_readsWhole h bytes nbytes with ⟨hfalse, -⟩ | ⟨content, hopen, -, hl⟩
      · rw [htrue] at hfalse
        cases hfalse
      · exact ⟨content, hopen, hl⟩
    · rcases loadWasmFile_of_readsWhole h bytes nbytes with ⟨-, hl⟩ | ⟨content, -, htrue, -⟩
      · exact hl
      · rw [hfalse] at htrue
        cases htrue
    · rintro R c rfl wasm hwasm
      exact handed_of_readsWhole h hwasm

/-! ## A file that is too long -/

/-- **A long file is cut.** With every call succeeding, the caller gets as much of the file
as the 32 bits of its length say. -/
theorem loadWasmFile_cut (content : List UInt8) (bytes : Option (List UInt8))
    (nbytes : BitVec 64) :
    (loadWasmFile ⟨some content, true, true, content.length⟩ bytes nbytes).result = true
      ∧ (loadWasmFile ⟨some content, true, true, content.length⟩ bytes nbytes).bytes
        = some (content.take (content.length % 2 ^ 32)) := by
  have hsize := FileCall.toNat_totalSize ⟨some content, true, true, content.length⟩ content
  rw [if_pos rfl] at hsize
  have hcourse := fileCourse ⟨some content, true, true, content.length⟩ bytes nbytes
  generalize loadWasmFile ⟨some content, true, true, content.length⟩ bytes nbytes = l
    at hcourse ⊢
  cases hcourse with
  | notOpened hopen => cases hopen
  | noMemory hopen hmalloc => cases hmalloc
  | short hopen hmalloc hlt =>
      obtain rfl := Option.some.inj hopen
      rw [hsize, Nat.min_self] at hlt
      exact absurd (Nat.mod_le content.length (2 ^ 32)) (Nat.not_le_of_lt hlt)
  | read hopen hmalloc hle hdata =>
      obtain rfl := Option.some.inj hopen
      rw [hsize] at hdata
      exact ⟨rfl, congrArg some hdata⟩

/-- A file one byte longer than 32 bits count is loaded as that one byte. -/
theorem long_file_is_cut :
    ¬∀ (f : FileCall) (bytes : Option (List UInt8)) (nbytes : BitVec 64),
      (∀ content, f.fopen = some content → content.length < 2 ^ 63) →
      LoadsWhole f bytes nbytes := by
  intro hall
  obtain ⟨content, hlen⟩ : ∃ content : List UInt8, content.length = 2 ^ 32 + 1 :=
    ⟨List.replicate _ 0, List.length_replicate⟩
  have hwhole := hall ⟨some content, true, true, content.length⟩ none 0 fun content' h => by
    rw [← Option.some.inj h, hlen]
    decide
  obtain ⟨hresult, hbytes⟩ := loadWasmFile_cut content none 0
  obtain ⟨content', hopen, hbytes', -⟩ := hwhole.loaded hresult
  obtain rfl := Option.some.inj hopen
  have hcut := congrArg List.length (Option.some.inj (hbytes.symm.trans hbytes'))
  rw [List.length_take, hlen] at hcut
  omega

end Vespa
