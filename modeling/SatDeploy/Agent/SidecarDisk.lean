import SatDeploy.Agent.SvuTransfer
import SatDeploy.Svu.HookTrace

/-!
The sidecar of a transfer on disk: which bytes of a file hold a reassembly
buffer, that the meta and data hooks keep them, call by call, and that the
restore hook reads the buffer back.
-/

namespace SatDeploy.Agent

open Lib Svu

/-! ### The bytes of a sidecar -/

/-- The file has a header for `buffer` and its bytes; bytes past the end of the
file read as zeros. -/
structure HoldsBuffer (content buffer : Bytes) : Prop where
  header_ok : sidecarHeaderOk (slice content 0 sidecarHdr) = true
  total_eq : sidecarGet32 (slice content 0 sidecarHdr) 8 = buffer.length
  bytes_eq : ∀ i < buffer.length, content.getD (sidecarHdr + i) 0 = buffer.getD i 0

section Bytes

variable {content buffer payload : Bytes} {offset : Nat}

theorem getElem?_overwrite (data : Bytes) (offset : Nat) (bytes : Bytes) (i : Nat) :
    (overwrite data offset bytes)[i]? =
      if offset ≤ i ∧ i < offset + bytes.length then bytes[i - offset]?
      else if bytes = [] then data[i]?
      else (data ++ List.replicate (offset + bytes.length - data.length) 0)[i]? := by
  unfold overwrite
  split
  case isTrue hnil =>
    subst hnil
    rw [if_neg (by simp)]
  case isFalse hne =>
    rw [getElem?_splice]
    simp only [List.length_append, List.length_replicate]
    omega

theorem getElem?_padded_of_lt {data : Bytes} {i n : Nat} (hi : i < data.length) :
    (data ++ List.replicate n 0)[i]? = data[i]? :=
  List.getElem?_append_left hi

theorem getD_padded (data : Bytes) (n i : Nat) :
    (data ++ List.replicate n 0).getD i 0 = data.getD i 0 := by
  simp only [List.getD_eq_getElem?_getD]
  rcases Nat.lt_or_ge i data.length with hi | hi
  · rw [getElem?_padded_of_lt hi]
  · rw [List.getElem?_append_right hi, List.getElem?_eq_none hi, List.getElem?_replicate]
    split <;> rfl

theorem getD_overwrite (data : Bytes) (offset : Nat) (bytes : Bytes) (i : Nat) :
    (overwrite data offset bytes).getD i 0 =
      if offset ≤ i ∧ i < offset + bytes.length then bytes.getD (i - offset) 0
      else data.getD i 0 := by
  rw [List.getD_eq_getElem?_getD, getElem?_overwrite]
  split
  · rw [List.getD_eq_getElem?_getD]
  · split
    · rw [List.getD_eq_getElem?_getD]
    · rw [← List.getD_eq_getElem?_getD, getD_padded]

theorem getD_splice (h : offset + payload.length ≤ buffer.length) (i : Nat) :
    (splice buffer offset payload).getD i 0 =
      if offset ≤ i ∧ i < offset + payload.length then payload.getD (i - offset) 0
      else buffer.getD i 0 := by
  rw [List.getD_eq_getElem?_getD, getElem?_splice h]
  split <;> rw [List.getD_eq_getElem?_getD]

theorem length_sidecarHeader (total block : Nat) :
    (sidecarHeader total block).length = sidecarHdr := rfl

theorem sidecarHeader_ok (total block : Nat) (hpos : 0 < total) (hlt : total < 2 ^ 32) :
    sidecarHeaderOk (sidecarHeader total block) = true ∧
      sidecarGet32 (sidecarHeader total block) 8 = total := by
  have htotal : sidecarGet32 (sidecarHeader total block) 8 = total := by
    simp only [sidecarGet32, sidecarHeader, sidecarPut32, List.cons_append, List.nil_append,
      List.getD_cons_succ, List.getD_cons_zero, UInt8.toNat_ofNat']
    omega
  have hmagic : sidecarGet32 (sidecarHeader total block) 0 = sidecarMagic := by
    simp [sidecarGet32, sidecarHeader, sidecarPut32, sidecarMagic]
  have hversion : sidecarGet32 (sidecarHeader total block) 4 = sidecarVersion := by
    simp [sidecarGet32, sidecarHeader, sidecarPut32, sidecarVersion]
  refine ⟨?_, htotal⟩
  simp only [sidecarHeaderOk, length_sidecarHeader, hmagic, hversion, htotal]
  simp only [decide_true, Bool.and_self, Bool.true_and, decide_eq_true_eq]
  omega

theorem HoldsBuffer.hdr_le (h : HoldsBuffer content buffer) : sidecarHdr ≤ content.length := by
  have hok := h.header_ok
  simp only [sidecarHeaderOk, Bool.and_eq_true, decide_eq_true_eq] at hok
  have hlen := hok.1.1.1
  rw [length_slice] at hlen
  omega

/-- A fragment written at its place. -/
theorem HoldsBuffer.data (h : HoldsBuffer content buffer)
    (hfits : offset + payload.length ≤ buffer.length) :
    HoldsBuffer (overwrite content (sidecarHdr + offset) payload)
      (splice buffer offset payload) := by
  have hle := h.hdr_le
  have hheader : slice (overwrite content (sidecarHdr + offset) payload) 0 sidecarHdr =
      slice content 0 sidecarHdr := by
    apply slice_congr
    intro i _ hi
    rw [getElem?_overwrite, if_neg (by omega)]
    split
    · rfl
    · exact getElem?_padded_of_lt (by omega)
  refine ⟨by rw [hheader]; exact h.header_ok, ?_, ?_⟩
  · rw [hheader, h.total_eq, length_splice hfits]
  · intro i hi
    rw [length_splice hfits] at hi
    rw [getD_overwrite, getD_splice hfits, ← h.bytes_eq i hi]
    by_cases hin : offset ≤ i ∧ i < offset + payload.length
    · rw [if_pos hin, if_pos (by omega), Nat.add_sub_add_left]
    · rw [if_neg hin, if_neg (by omega)]

/-- A header written over a file that has the bytes. -/
theorem HoldsBuffer.headed (block : Nat) (hpos : 0 < buffer.length)
    (hlt : buffer.length < 2 ^ 32)
    (hbytes : ∀ i < buffer.length, content.getD (sidecarHdr + i) 0 = buffer.getD i 0) :
    HoldsBuffer (overwrite content 0 (sidecarHeader buffer.length block)) buffer := by
  have hlen := length_sidecarHeader buffer.length block
  have hheader : slice (overwrite content 0 (sidecarHeader buffer.length block)) 0 sidecarHdr =
      sidecarHeader buffer.length block := by
    apply List.ext_getElem?
    intro i
    rw [getElem?_slice, Nat.zero_add, Nat.sub_zero]
    split
    · rw [getElem?_overwrite, if_pos (by omega), Nat.sub_zero]
    · rw [List.getElem?_eq_none (by omega)]
  obtain ⟨hok, htotal⟩ := sidecarHeader_ok buffer.length block hpos hlt
  refine ⟨by rw [hheader]; exact hok, by rw [hheader]; exact htotal, ?_⟩
  intro i hi
  rw [getD_overwrite, if_neg (by omega)]
  exact hbytes i hi

/-- What `sidecar_restore` reads back. -/
theorem HoldsBuffer.read_back (h : HoldsBuffer content buffer) :
    slice content sidecarHdr (sidecarHdr + buffer.length) ++
      List.replicate (buffer.length -
        (slice content sidecarHdr (sidecarHdr + buffer.length)).length) 0 = buffer := by
  have hlen := length_slice content sidecarHdr (sidecarHdr + buffer.length)
  apply List.ext_getElem
  · rw [List.length_append, List.length_replicate]
    omega
  · intro i hi hi'
    have heq := h.bytes_eq i hi'
    have hread : (slice content sidecarHdr (sidecarHdr + buffer.length)).getD i 0 =
        content.getD (sidecarHdr + i) 0 := by
      rw [List.getD_eq_getElem?_getD, getElem?_slice, if_pos (by omega),
        List.getD_eq_getElem?_getD]
    rw [← hread, ← getD_padded _ (buffer.length -
      (slice content sidecarHdr (sidecarHdr + buffer.length)).length)] at heq
    rw [List.getD_eq_getElem?_getD, List.getElem?_eq_getElem hi, List.getD_eq_getElem?_getD,
      List.getElem?_eq_getElem hi'] at heq
    exact heq

end Bytes

/-! ### The hooks on disk -/

/-- An operating system that does what a pass asks of its sidecar. Removing files
may fail, and so may everything about other files. -/
structure Env.Serves (env : Env) (path : Path) : Prop where
  openUpdate : ∀ n, env.fault n (.openUpdate path) = none
  openWrite : ∀ n, env.fault n (.openWrite path) = none
  read : ∀ n, env.fault n (.read path) = none
  write : ∀ n, env.fault n (.write path) = none
  truncate : ∀ n, env.fault n (.truncate path) = none

/-- The sidecar holds a buffer, or nothing that can be restored. -/
def OnDisk (path : Path) (s : Target) : Option Bytes → Prop
  | none => s.content path = none ∨ s.content path = some []
  | some buffer => ∃ content, s.content path = some content ∧ HoldsBuffer content buffer

/-- The descriptor that goes with it. -/
def Sidecar.holding : Option Bytes → Sidecar
  | none => .closed
  | some buffer => ⟨true, buffer.length⟩

section Disk

variable {env : Env} {path : Path} {n : Nat} {s t : Target} {found : Option Bytes}
  {buffer payload : Bytes} {offset total block : Nat}

theorem OnDisk.congr (h : OnDisk path s found) (heq : t.fs.lookup path = s.fs.lookup path) :
    OnDisk path t found := by
  unfold OnDisk at h ⊢
  rw [Target.content_congr heq]
  exact h

theorem OnDisk.lookup (h : OnDisk path s (some buffer)) :
    ∃ f, s.fs.lookup path = some f ∧ HoldsBuffer f.data buffer := by
  obtain ⟨content, hcontent, hholds⟩ := h
  obtain ⟨f, hf, rfl⟩ := Option.map_eq_some_iff.mp hcontent
  exact ⟨f, hf, hholds⟩

theorem onDisk_put {f : File} (h : HoldsBuffer f.data buffer) :
    OnDisk path (s.put path f) (some buffer) :=
  ⟨f.data, Target.content_put, h⟩

theorem sidecarHeaderOk_nil : sidecarHeaderOk (slice [] 0 sidecarHdr) = false := rfl

/-- The restore hook gives back what is on disk. -/
theorem sidecarRestore_wp (henv : env.Serves path) (h : OnDisk path s found) :
    Prog.wp (sidecarRestore env path true) (fun t => OnDisk path t found)
      (fun r _ t => r = (found, Sidecar.holding found) ∧ OnDisk path t found) n s := by
  unfold sidecarRestore openUpdate pread unlink Env.ok
  simp only [Prog.wp_bind, Prog.wp_call, henv.openUpdate, henv.read, Option.isNone_none,
    Bool.true_and, List.getLastD_nil, List.not_mem_nil, false_implies, implies_true, true_and]
  cases found with
  | none =>
      cases hlookup : s.fs.lookup path with
      | none =>
          simp only [Option.isSome_none, Bool.false_eq_true, if_false, Prog.wp_pure]
          exact ⟨rfl, h⟩
      | some f =>
          have hempty : s.content path = some [] := by
            rcases h with h | h
            · simp [Target.content, hlookup] at h
            · exact h
          simp only [Option.isSome_some, if_true, Prog.wp_bind, Prog.wp_call, hempty,
            Option.getD_some, Nat.zero_add, sidecarHeaderOk_nil, Bool.false_eq_true, if_false,
            List.getLastD_nil, Prog.wp_pure, hlookup, Bool.and_true]
          split
          · refine ⟨by simp, fun t ht => ?_, rfl, Or.inl Target.content_remove⟩
            rw [List.mem_singleton.mp ht]
            exact Or.inl Target.content_remove
          · exact ⟨by simp, by simp, rfl, h⟩
  | some buffer =>
      obtain ⟨f, hlookup, hholds⟩ := h.lookup
      have hcontent := Target.content_of_lookup hlookup
      have hback := hholds.read_back
      simp only [hlookup, Option.isSome_some, if_true, Prog.wp_bind, Prog.wp_call, hcontent,
        Option.getD_some, Nat.zero_add, hholds.header_ok, hholds.total_eq,
        List.getLastD_nil, Prog.wp_pure, hback]
      exact ⟨by simp, by simp, rfl, h⟩

theorem pwrite_run (henv : env.Serves path) {f : File} (hf : s.fs.lookup path = some f)
    (offset : Nat) (bytes : Bytes) :
    pwrite env path offset bytes n s =
      ⟨some true, s.put path { f with data := overwrite f.data offset bytes, mtime := env.clock n },
        n + 1,
        [s.put path { f with data := overwrite f.data offset bytes, mtime := env.clock n }]⟩ := by
  simp only [pwrite, Prog.call, hf, henv.write, List.getLastD_cons, List.getLastD_nil]

/-- Writing the header in front of the bytes of `buffer`. -/
theorem sidecarWriteHeader_run (buffer : Bytes) (block n : Nat) (henv : env.Serves path) {f : File}
    (hf : s.fs.lookup path = some f) (hpos : 0 < buffer.length) (hlt : buffer.length < 2 ^ 32)
    (hbytes : ∀ i < buffer.length, f.data.getD (sidecarHdr + i) 0 = buffer.getD i 0) :
    ∃ t, sidecarWriteHeader env path buffer.length block n s =
        ⟨some (Sidecar.holding (some buffer)), t, n + 1, [t]⟩ ∧
      OnDisk path t (some buffer) := by
  refine ⟨_, Prog.bind_run (pwrite_run henv hf _ _), onDisk_put ?_⟩
  exact HoldsBuffer.headed block hpos hlt hbytes

theorem getD_zeros (total i : Nat) : (List.replicate total (0 : UInt8)).getD i 0 = 0 := by
  rw [List.getD_eq_getElem?_getD, List.getElem?_replicate]
  split <;> rfl

/-- An empty file becomes the sidecar of a buffer of zeros. -/
theorem sidecarWriteHeader_zeros (block n : Nat) (henv : env.Serves path) {f : File}
    (hf : s.fs.lookup path = some f) (hempty : f.data = []) (hpos : 0 < total)
    (hlt : total < 2 ^ 32) :
    ∃ t, sidecarWriteHeader env path total block n s =
        ⟨some (Sidecar.holding (some (List.replicate total 0))), t, n + 1, [t]⟩ ∧
      OnDisk path t (some (List.replicate total 0)) := by
  have hlen : (List.replicate total (0 : UInt8)).length = total := List.length_replicate
  have hrun := sidecarWriteHeader_run (List.replicate total 0) block n henv hf (by omega)
    (by omega) (by
      intro i _
      rw [hempty, getD_zeros]
      rfl)
  rw [hlen] at hrun
  exact hrun

theorem openCreate_run (henv : env.Serves path) :
    ∃ f : File, f.data = [] ∧ openCreate env path n s =
      ⟨some true, s.put path f, n + 1, [s.put path f]⟩ := by
  cases hlookup : s.fs.lookup path with
  | none =>
      refine ⟨⟨[], 0o600, env.clock n⟩, rfl, ?_⟩
      simp only [openCreate, Prog.call, Env.ok, henv.openWrite, Option.isNone_none, if_true,
        hlookup, List.getLastD_cons, List.getLastD_nil]
  | some f =>
      refine ⟨⟨[], f.mode, env.clock n⟩, rfl, ?_⟩
      simp only [openCreate, Prog.call, Env.ok, henv.openWrite, Option.isNone_none, if_true,
        hlookup, List.getLastD_cons, List.getLastD_nil]

theorem ftruncate_run (henv : env.Serves path) {f : File} (hf : s.fs.lookup path = some f) :
    ∃ f : File, f.data = [] ∧ ftruncate env path n s =
      ⟨some (), s.put path f, n + 1, [s.put path f]⟩ := by
  refine ⟨{ f with data := [], mtime := env.clock n }, rfl, ?_⟩
  simp only [ftruncate, Prog.call, Env.ok, henv.truncate, hf, Option.isNone_none,
    List.getLastD_cons, List.getLastD_nil]

theorem sidecarMeta_open (env : Env) (path : Path) (total block : Nat) {sc : Sidecar}
    (h : sc.fdOpen = true) :
    sidecarMeta env path sc total block =
      if sc.total ≠ total then do
        ftruncate env path
        sidecarWriteHeader env path total block
      else sidecarWriteHeader env path total block := by
  unfold sidecarMeta
  rw [if_neg (by simp [h])]

/-- The meta hook. Between its two calls, when it makes two, the file is empty. -/
theorem metaHook_run (block n : Nat) (henv : env.Serves path) (h : OnDisk path s found)
    (hpos : 0 < total) (hlt : total < 2 ^ 32) :
    ∃ inside t m, sidecarMeta env path (Sidecar.holding found) total block n s =
        ⟨some (Sidecar.holding (some (startBuffer found total))), t, m, inside ++ [t]⟩ ∧
      OnDisk path t (some (startBuffer found total)) ∧ ∀ u ∈ inside, OnDisk path u none := by
  cases found with
  | none =>
      obtain ⟨f, hempty, hopen⟩ := openCreate_run (n := n) (s := s) henv
      obtain ⟨t, hrun, hdisk⟩ := sidecarWriteHeader_zeros block (n + 1) henv
        (s := s.put path f) Target.lookup_put hempty hpos hlt
      refine ⟨[s.put path f], t, n + 1 + 1, ?_, hdisk, ?_⟩
      · change (openCreate env path >>= _) n s = _
        rw [Prog.bind_run hopen, if_pos rfl, hrun]
        rfl
      · intro u hu
        rw [List.mem_singleton.mp hu]
        exact Or.inr (by rw [Target.content_put, hempty])
  | some buffer =>
      obtain ⟨f, hf, hholds⟩ := h.lookup
      have hopen := sidecarMeta_open env path total block
        (show (Sidecar.holding (some buffer)).fdOpen = true from rfl)
      by_cases hsame : buffer.length = total
      · have hkeep : ¬ (Sidecar.holding (some buffer)).total ≠ total := not_not_intro hsame
        rw [if_neg hkeep] at hopen
        have hstart : startBuffer (some buffer) total = buffer := by rw [startBuffer, if_pos hsame]
        obtain ⟨t, hrun, hdisk⟩ := sidecarWriteHeader_run buffer block n henv hf
          (by omega) (by omega) hholds.bytes_eq
        rw [hopen, hstart, ← hsame]
        exact ⟨[], t, n + 1, hrun, hdisk, by simp⟩
      · have hreset : (Sidecar.holding (some buffer)).total ≠ total := hsame
        rw [if_pos hreset] at hopen
        have hstart : startBuffer (some buffer) total = List.replicate total 0 := by
          rw [startBuffer, if_neg hsame]
        obtain ⟨f', hempty, hcut⟩ := ftruncate_run (n := n) henv hf
        obtain ⟨t, hrun, hdisk⟩ := sidecarWriteHeader_zeros block (n + 1) henv
          (s := s.put path f') Target.lookup_put hempty hpos hlt
        rw [hopen, hstart]
        refine ⟨[s.put path f'], t, n + 1 + 1, ?_, hdisk, ?_⟩
        · rw [Prog.bind_run hcut, hrun]
        · intro u hu
          rw [List.mem_singleton.mp hu]
          exact Or.inr (by rw [Target.content_put, hempty])

/-- The data hook makes one call. -/
theorem dataHook_run (henv : env.Serves path) (h : OnDisk path s (some buffer))
    (hfits : offset + payload.length ≤ buffer.length) :
    ∃ t m, sidecarData env path (Sidecar.holding (some buffer)) offset payload n s =
        ⟨some (Sidecar.holding (some (splice buffer offset payload))), t, m, [t]⟩ ∧
      OnDisk path t (some (splice buffer offset payload)) := by
  obtain ⟨f, hf, hholds⟩ := h.lookup
  have hroom : ¬ ((Sidecar.holding (some buffer)).fdOpen = false ∨
      offset > (Sidecar.holding (some buffer)).total ∨
      payload.length > (Sidecar.holding (some buffer)).total - offset) := by
    simp only [Sidecar.holding]
    simp only [Bool.true_eq_false, false_or]
    omega
  refine ⟨s.put path { f with
    data := overwrite f.data (sidecarHdr + offset) payload, mtime := env.clock n }, n + 1, ?_,
    onDisk_put (hholds.data hfits)⟩
  unfold sidecarData
  rw [if_neg hroom, Prog.bind_run (pwrite_run henv hf _ _), if_pos rfl]
  simp only [Sidecar.holding, length_splice hfits]
  rfl

end Disk

end SatDeploy.Agent
