import Mathlib.Data.List.TakeWhile
import SatDeploy.Agent.Reliable
import SatDeploy.Agent.SvuTransfer
import SatDeploy.Svu.RequestCodec

/-!
The sidecar of a packet transfer, `satdeploy-agent/src/session_state.c`: a
header of 81 bytes that binds the file to one transfer, then the receive
bitmap. A save writes a temporary file and renames it; a load takes the bitmap
only from a file whose header names the transfer of the caller, and removes any
other file. Numbers are in the byte order of the target, low byte first.
-/

namespace SatDeploy.Agent

open Lib Svu

/-- What a sidecar is bound to. -/
structure SessionTuple where
  expectedSize : UInt32
  expectedHash : Bytes
  nofPackets : UInt32
  effectiveMtu : UInt16
  deriving DecidableEq, Repr

/-- The hash is a string of 64 characters. -/
structure SessionTuple.Hashed (key : SessionTuple) : Prop where
  length : key.expectedHash.length = hashHexLen
  text : 0 ∉ key.expectedHash

def sessionStateFormatVersion : Nat := 1

section Programs

variable (env : Env)

def sessionStateDirEnsure : Prog Target Bool := do
  if ← mkdirP env sessionStateDir then
    chmod env sessionStateDir 0o700
    return true
  else return false

/-- `fflush`: a failing one loses the tail. -/
def fflush (p : Path) : Prog Target Bool :=
  .call fun n s =>
    match env.fault n (.write p), s.fs.lookup p with
    | none, _ => (true, [])
    | some k, some f => (false, [s.put p { f with data := f.data.take k }])
    | some _, none => (false, [])

/-- `fclose`: only a stream that could not be flushed has something to lose. -/
def fcloseFlushed (p : Path) (flushed : Bool) : Prog Target Unit :=
  if flushed then .call fun _ _ => ((), []) else fcloseWritten env p

/-- One `fwrite` after another, each made whatever became of those before. -/
def fwritePieces (p : Path) : List Bytes → Bool → Prog Target Bool
  | [], ok => return ok
  | piece :: rest, ok => do
      let written ← fwriteAll env p piece
      fwritePieces p rest (ok && written)

/-- `hash_buf`. -/
def hashBuf (hash : Bytes) : Bytes :=
  hash.take hashHexLen ++ List.replicate (hashHexLen + 1 - (hash.take hashHexLen).length) 0

def sessionHeader (key : SessionTuple) : List Bytes :=
  [leBytes 4 sessionStateFormatVersion, leBytes 4 key.expectedSize.toNat,
    hashBuf key.expectedHash, leBytes 4 key.nofPackets.toNat, leBytes 2 key.effectiveMtu.toNat,
    leBytes 2 0]

def sessionTmpPath (path : Path) : Path := path ++ ascii ".tmp"

def sessionStateSave (path : Path) (key : SessionTuple) (bitmap : Bytes) : Prog Target Bool := do
  if ← sessionStateDirEnsure env then
    let tmp := sessionTmpPath path
    if tmp.length ≥ 640 then return false
    else if ← fopenWrite env tmp then
      let ok ← fwritePieces env tmp
        (sessionHeader key ++ (if bitmap.length > 0 then [bitmap] else [])) true
      let flushed ← fflush env tmp
      fcloseFlushed env tmp flushed
      if ok && flushed then
        if ← rename env tmp path then return true
        else
          let _ ← unlink env tmp
          return false
      else
        let _ ← unlink env tmp
        return false
    else return false
  else return false

/-- One `fread` of `size` bytes from what is left of a stream: what it delivers
and what is left then. -/
def freadItem (p : Path) (size : Nat) (rest : Bytes) : Prog Target (Bytes × Bytes) :=
  .call fun n _ =>
    match env.fault n (.read p) with
    | none => ((rest.take size, rest.drop size), [])
    | some k => ((rest.take (min k size), rest.drop (min k size)), [])

/-- The checks on a complete header, up to the bitmap. -/
def sessionHeaderOk (key : SessionTuple) (version size hash packets mtu : Bytes) : Bool :=
  leValue version = sessionStateFormatVersion &&
  cString (hash.take hashHexLen) = key.expectedHash &&
  leValue size = key.expectedSize.toNat && leValue packets = key.nofPackets.toNat &&
  leValue mtu = key.effectiveMtu.toNat

/-- The answer, and `bitmap_out` afterwards. -/
def sessionStateLoad (path : Path) (key : SessionTuple) (out : Bytes) :
    Prog Target (Bool × Bytes) := do
  match ← fopenRead env path with
  | none => return (false, out)
  | some data =>
      let (version, rest) ← freadItem env path 4 data
      let (size, rest) ← freadItem env path 4 rest
      let (hash, rest) ← freadItem env path 65 rest
      let (packets, rest) ← freadItem env path 4 rest
      let (mtu, rest) ← freadItem env path 2 rest
      let (reserved, rest) ← freadItem env path 2 rest
      if version.length = 4 ∧ size.length = 4 ∧ hash.length = 65 ∧ packets.length = 4 ∧
          mtu.length = 2 ∧ reserved.length = 2 then
        if sessionHeaderOk key version size hash packets mtu then
          if out.length > 0 then
            let (got, _) ← freadItem env path out.length rest
            if got.length = out.length then return (true, got)
            else
              let _ ← unlink env path
              return (false, List.replicate out.length 0)
          else return (true, out)
        else
          let _ ← unlink env path
          return (false, out)
      else
        let _ ← unlink env path
        return (false, out)

end Programs

/-! ### The format -/

/-- `f` is a sidecar for `key` with that bitmap: the last byte of the hash field
and the reserved field are free, and more may follow. -/
def SidecarFor (key : SessionTuple) (f bitmap : Bytes) : Prop :=
  ∃ (pad : UInt8) (reserved rest : Bytes), reserved.length = 2 ∧
    f = leBytes 4 sessionStateFormatVersion ++ leBytes 4 key.expectedSize.toNat ++
      key.expectedHash ++ [pad] ++ leBytes 4 key.nofPackets.toNat ++
      leBytes 2 key.effectiveMtu.toNat ++ reserved ++ bitmap ++ rest

/-- What a save leaves at the path of the sidecar. -/
def sidecarText (key : SessionTuple) (bitmap : Bytes) : Bytes :=
  (sessionHeader key).flatten ++ bitmap

/-! ### Saving -/

section Saving

variable {env : Env} {W : Path → Prop} {n : Nat} {s : Target} {p path : Path}
  {key : SessionTuple} {bitmap : Bytes}

theorem sessionStateDirEnsure_touches : Touches W (sessionStateDirEnsure env) := by
  unfold sessionStateDirEnsure
  refine .bind (mkdirP_touches _) fun _ => .ite ?_ (.pure _)
  exact .bind (chmod_touches _ _) fun _ => .pure _

theorem fflush_touches (hp : W p) : Touches W (fflush env p) := by
  apply Touches.call
  intro n s t ht q hq
  have hqp : q ≠ p := fun h => hq (h ▸ hp)
  split at ht
  · cases ht
  · rw [List.mem_singleton.mp ht]
    exact Target.content_put_ne hqp
  · cases ht

theorem fcloseFlushed_touches (hp : W p) (flushed : Bool) :
    Touches W (fcloseFlushed env p flushed) := by
  unfold fcloseFlushed
  refine .ite (.call fun _ _ _ ht => ?_) (fcloseWritten_touches hp)
  cases ht

theorem fwritePieces_touches (hp : W p) (pieces : List Bytes) (ok : Bool) :
    Touches W (fwritePieces env p pieces ok) := by
  induction pieces generalizing ok with
  | nil => exact .pure _
  | cons piece rest ih => exact .bind (fwriteAll_touches hp _) fun _ => ih _

/-- A write that succeeds adds its bytes. -/
theorem fwriteAll_adds (bytes : Bytes) :
    Prog.wp (fwriteAll env p bytes) (fun _ => True) (fun ok _ t => ok = true →
      ∀ data, s.content p = some data → t.content p = some (data ++ bytes)) n s := by
  have hall : ∀ k, bytes.length ≤ k → ∀ data, s.content p = some data →
      Target.content (((List.range (min k bytes.length)).map fun i =>
        s.append p (bytes.take (i + 1)) (env.clock n)).getLastD s) p = some (data ++ bytes) := by
    intro k hk data hdata
    obtain ⟨f, hf, hfdata⟩ := exists_lookup hdata
    rw [Nat.min_eq_right hk]
    rcases List.eq_nil_or_concat bytes with rfl | ⟨init, last, rfl⟩
    · simpa using hdata
    · have htake : (init.concat last).take (init.length + 1) = init.concat last :=
        List.take_of_length_le (by simp)
      simp only [List.length_concat, List.range_succ, List.map_append, List.map_cons,
        List.map_nil, List.getLastD_concat, htake, Target.append, hf, Target.content_put, hfdata]
  unfold fwriteAll
  rw [Prog.wp_call]
  refine ⟨fun _ _ => trivial, ?_⟩
  cases env.fault n (.write p) with
  | none =>
      intro _ data hdata
      simpa using hall bytes.length (le_refl _) data hdata
  | some k =>
      intro hok data hdata
      exact hall k (by simpa using hok) data hdata

theorem fwritePieces_adds (pieces : List Bytes) (ok : Bool) :
    Prog.wp (fwritePieces env p pieces ok) (fun _ => True) (fun done _ t => done = true →
      ok = true ∧ ∀ data, s.content p = some data →
        t.content p = some (data ++ pieces.flatten)) n s := by
  induction pieces generalizing ok n s with
  | nil =>
      rw [fwritePieces, Prog.wp_pure]
      exact fun hok => ⟨hok, fun data hdata => by simpa using hdata⟩
  | cons piece rest ih =>
      rw [fwritePieces, Prog.wp_bind]
      refine Prog.wp_imp (fwriteAll_adds piece) fun written m t hwritten => ?_
      refine Prog.wp_imp (ih (ok && written)) fun done k u hdone hok => ?_
      obtain ⟨hboth, hadds⟩ := hdone hok
      rw [Bool.and_eq_true] at hboth
      refine ⟨hboth.1, fun data hdata => ?_⟩
      rw [hadds _ (hwritten hboth.2 data hdata), List.flatten_cons, List.append_assoc]

theorem fflush_wp : Prog.wp (fflush env p) (fun _ => True)
    (fun flushed _ t => flushed = true → t.content p = s.content p) n s := by
  unfold fflush
  rw [Prog.wp_call]
  refine ⟨fun _ _ => trivial, ?_⟩
  split
  · exact fun _ => rfl
  · exact fun h => by cases h
  · exact fun h => by cases h

theorem sessionTmpPath_ne : path ≠ sessionTmpPath path := by
  intro h
  have hlen := congrArg List.length h
  rw [sessionTmpPath, List.length_append] at hlen
  have htail : (ascii ".tmp").length = 4 := rfl
  omega

/-- What the temporary file holds when it is renamed. -/
theorem flatten_pieces :
    (sessionHeader key ++ (if bitmap.length > 0 then [bitmap] else [])).flatten =
      sidecarText key bitmap := by
  rw [List.flatten_append, sidecarText]
  split
  next => simp
  next hnone =>
    have hnil : bitmap = [] := List.length_eq_zero_iff.mp (by omega)
    simp [hnil]

/-- The temporary file alone. -/
def TmpOnly (path p : Path) : Prop := p = sessionTmpPath path

theorem tmpOnly_tmp : TmpOnly path (sessionTmpPath path) := rfl

/-- A part of the save that works on the temporary file only. -/
theorem Touches.keepsSidecar {α : Type} {c : Prog Target α} {old : Option Bytes}
    {Q : α → Nat → Target → Prop} (hc : Touches (TmpOnly path) c)
    (hs : s.content path = old) (h : Prog.wp c (fun _ => True) Q n s) :
    Prog.wp c (fun t => t.content path = old) (fun a m t => t.content path = old ∧ Q a m t) n s :=
  Prog.wp_mono (Prog.wp_and (hc path old sessionTmpPath_ne n s hs) h) (fun _ ht => ht.1)
    fun _ _ _ ht => ht

theorem fopenWrite_empty :
    Prog.wp (fopenWrite env p) (fun _ => True)
      (fun opened _ t => opened = true → t.content p = some []) n s := by
  unfold fopenWrite
  rw [Prog.wp_call]
  refine ⟨fun _ _ => trivial, ?_⟩
  split
  · exact fun _ => Target.content_put
  · exact fun h => by cases h

theorem fcloseFlushed_wp {flushed : Bool} :
    Prog.wp (fcloseFlushed env p flushed) (fun _ => True)
      (fun _ _ t => flushed = true → t.content p = s.content p) n s := by
  cases flushed with
  | false => exact Prog.wp_any _ fun _ _ _ h => by cases h
  | true => exact ⟨fun _ _ => trivial, fun _ => rfl⟩

section Crash

variable {old : Option Bytes}

/-- The sidecar is the old one or the new one, complete. -/
def SidecarKept (path : Path) (old : Option Bytes) (new : Bytes) (t : Target) : Prop :=
  t.content path = old ∨ t.content path = some new

/-- Giving up: the temporary file goes, the sidecar stays. -/
theorem giveUp_wp (hs : s.content path = old) :
    Prog.wp (do
      let _ ← unlink env (sessionTmpPath path)
      return false) (SidecarKept path old (sidecarText key bitmap))
      (fun saved _ t => t.content path = if saved then some (sidecarText key bitmap) else old)
      n s := by
  rw [Prog.wp_bind]
  refine Prog.wp_mono ((unlink_touches tmpOnly_tmp).keepsSidecar hs
    (Prog.wp_any _ fun _ _ _ => trivial)) (fun _ => Or.inl) ?_
  rintro _ m t ⟨ht, -⟩
  rw [Prog.wp_pure]
  simpa using ht

/-- The end of a save, with the temporary file written and closed. -/
theorem putInPlace_wp {ok : Bool} (hs : s.content path = old)
    (htmp : ok = true → s.content (sessionTmpPath path) = some (sidecarText key bitmap)) :
    Prog.wp (do
      if ok then
        if ← rename env (sessionTmpPath path) path then return true
        else
          let _ ← unlink env (sessionTmpPath path)
          return false
      else
        let _ ← unlink env (sessionTmpPath path)
        return false) (SidecarKept path old (sidecarText key bitmap))
      (fun saved _ t => t.content path = if saved then some (sidecarText key bitmap) else old)
      n s := by
  cases ok with
  | false => exact giveUp_wp hs
  | true =>
      simp only [if_true]
      rw [Prog.wp_bind]
      refine rename_wp ?_ fun t data hdata ht => ?_
      · exact giveUp_wp hs
      · rw [← Option.some.inj ((htmp rfl).symm.trans hdata)] at ht
        refine ⟨Or.inr ht, ?_⟩
        simp only [if_true]
        rw [Prog.wp_pure]
        simpa using ht

/-- The old content or the new one, complete, wherever a save stops; the new one
exactly when it succeeds. -/
theorem sessionStateSave_wp (hs : s.content path = old) :
    Prog.wp (sessionStateSave env path key bitmap) (SidecarKept path old (sidecarText key bitmap))
      (fun saved _ t => t.content path = if saved then some (sidecarText key bitmap) else old)
      n s := by
  have hfail : ∀ m (t : Target), t.content path = old →
      Prog.wp (pure false : Prog Target Bool) (SidecarKept path old (sidecarText key bitmap))
        (fun saved _ t => t.content path = if saved then some (sidecarText key bitmap) else old)
        m t := by
    intro m t ht
    rw [Prog.wp_pure]
    simpa using ht
  unfold sessionStateSave
  rw [Prog.wp_bind]
  refine Prog.wp_mono (sessionStateDirEnsure_touches.keepsSidecar hs
    (Prog.wp_any _ fun _ _ _ => trivial)) (fun _ => Or.inl) ?_
  rintro made m t ⟨ht, -⟩
  refine Prog.wp_ite (Prog.wp_ite (hfail m t ht) ?_) (hfail m t ht)
  rw [Prog.wp_bind]
  refine Prog.wp_mono ((fopenWrite_touches tmpOnly_tmp).keepsSidecar ht fopenWrite_empty)
    (fun _ => Or.inl) ?_
  rintro opened m t ⟨ht, hempty⟩
  cases opened with
  | false => exact hfail m t ht
  | true =>
      simp only [if_true]
      rw [Prog.wp_bind]
      refine Prog.wp_mono ((fwritePieces_touches tmpOnly_tmp _ _).keepsSidecar ht
        (fwritePieces_adds _ _)) (fun _ => Or.inl) ?_
      rintro ok m u ⟨hu, hadds⟩
      rw [Prog.wp_bind]
      refine Prog.wp_mono ((fflush_touches tmpOnly_tmp).keepsSidecar hu fflush_wp)
        (fun _ => Or.inl) ?_
      rintro flushed m v ⟨hv, hflushed⟩
      rw [Prog.wp_bind]
      refine Prog.wp_mono ((fcloseFlushed_touches tmpOnly_tmp _).keepsSidecar hv fcloseFlushed_wp)
        (fun _ => Or.inl) ?_
      rintro _ m w ⟨hw, hclosed⟩
      refine putInPlace_wp hw fun hboth => ?_
      rw [Bool.and_eq_true] at hboth
      obtain ⟨-, hwritten⟩ := hadds hboth.1
      rw [hclosed hboth.2, hflushed hboth.2, hwritten [] (hempty rfl), flatten_pieces]
      rfl

end Crash

end Saving

/-! ### Loading -/

section Format

variable {key : SessionTuple} {f bitmap : Bytes}

/-- The whole header is there and passes the checks. -/
def HeaderMatches (key : SessionTuple) (f : Bytes) : Prop :=
  81 ≤ f.length ∧
  sessionHeaderOk key (window f 0 4) (window f 4 4) (window f 8 65) (window f 73 4)
    (window f 77 2) = true

/-- Going on in the file behind a part of that length. -/
theorem drop_part {part rest : Bytes} {p q : Nat} (h : f.drop p = part ++ rest)
    (hq : p + part.length = q) : f.drop q = rest := by
  rw [← hq, ← List.drop_drop, h, List.drop_left]

theorem window_part {part rest : Bytes} {p len : Nat} (h : f.drop p = part ++ rest)
    (hlen : part.length = len) : window f p len = part := by
  rw [window, h, List.take_left' hlen]

theorem length_window {p len : Nat} (h : p + len ≤ f.length) : (window f p len).length = len := by
  rw [window, List.length_take, List.length_drop]
  omega

theorem cString_eq (h : 0 ∉ f) : cString f = f := by
  refine List.takeWhile_eq_self_iff.mpr fun c hc => ?_
  have hne : c ≠ 0 := fun h0 => h (h0 ▸ hc)
  simpa using hne

theorem leValue_size (v : UInt32) : leValue (leBytes 4 v.toNat) = v.toNat :=
  leValue_leBytes v.toNat_lt

theorem leValue_mtu (v : UInt16) : leValue (leBytes 2 v.toNat) = v.toNat :=
  leValue_leBytes v.toNat_lt

/-- A number field that has the value has its bytes. -/
theorem window_eq_leBytes {p len v : Nat} (h : p + len ≤ f.length)
    (hvalue : leValue (window f p len) = v) : window f p len = leBytes len v := by
  have hbytes := leBytes_leValue (window f p len)
  rw [length_window h, hvalue] at hbytes
  exact hbytes.symm

theorem SidecarFor.matches (hkey : key.Hashed) (h : SidecarFor key f bitmap) :
    HeaderMatches key f ∧ bitmap <+: f.drop 81 := by
  obtain ⟨pad, reserved, rest, hreserved, hf⟩ := h
  have hhash : (key.expectedHash ++ [pad]).length = 65 := by
    rw [List.length_append, hkey.length]
    rfl
  have h0 : f.drop 0 = leBytes 4 sessionStateFormatVersion ++ (leBytes 4 key.expectedSize.toNat ++
      ((key.expectedHash ++ [pad]) ++ (leBytes 4 key.nofPackets.toNat ++
      (leBytes 2 key.effectiveMtu.toNat ++ (reserved ++ (bitmap ++ rest)))))) := by
    simpa only [List.append_assoc, List.drop_zero] using hf
  have h4 := drop_part h0 (show _ = 4 by rw [length_leBytes])
  have h8 := drop_part h4 (show _ = 8 by rw [length_leBytes])
  have h73 := drop_part h8 (show _ = 73 by rw [hhash])
  have h77 := drop_part h73 (show _ = 77 by rw [length_leBytes])
  have h79 := drop_part h77 (show _ = 79 by rw [length_leBytes])
  have h81 := drop_part h79 (show _ = 81 by rw [hreserved])
  refine ⟨⟨?_, ?_⟩, ⟨rest, h81.symm⟩⟩
  · have hlen := congrArg List.length h79
    rw [List.length_drop, List.length_append, hreserved] at hlen
    omega
  · have htake : (key.expectedHash ++ [pad]).take hashHexLen = key.expectedHash :=
      List.take_left' hkey.length
    rw [window_part h0 (length_leBytes _ _), window_part h4 (length_leBytes _ _),
      window_part h8 hhash, window_part h73 (length_leBytes _ _),
      window_part h77 (length_leBytes _ _), sessionHeaderOk, htake, cString_eq hkey.text,
      leValue_size, leValue_size, leValue_mtu, leValue_leBytes (by decide)]
    simp

theorem sidecarFor_of_matches (hkey : key.Hashed) (h : HeaderMatches key f)
    (hbitmap : bitmap <+: f.drop 81) : SidecarFor key f bitmap := by
  obtain ⟨hlong, hok⟩ := h
  obtain ⟨rest, hrest⟩ := hbitmap
  simp only [sessionHeaderOk, Bool.and_eq_true, decide_eq_true_eq] at hok
  obtain ⟨⟨⟨⟨hversion, hhash⟩, hsize⟩, hpackets⟩, hmtu⟩ := hok
  have hfield : window f 8 64 = key.expectedHash := by
    have htake : (window f 8 65).take hashHexLen = window f 8 64 := by
      rw [window, window, List.take_take]
      rfl
    rw [htake] at hhash
    have hall : cString (window f 8 64) = window f 8 64 := by
      refine (List.takeWhile_prefix _).eq_of_length ?_
      have hlen : (cString (window f 8 64)).length = 64 := by rw [hhash, hkey.length]; rfl
      rw [length_window (by omega)]
      exact hlen
    rw [← hall, hhash]
  obtain ⟨pad, hpad⟩ : ∃ pad, window f 72 1 = [pad] :=
    List.length_eq_one_iff.mp (length_window (by omega))
  refine ⟨pad, window f 79 2, rest, length_window (by omega), ?_⟩
  have hparts : f = window f 0 81 ++ f.drop 81 := (List.take_append_drop 81 f).symm
  rw [← hrest] at hparts
  rw [← window_eq_leBytes (by omega) hversion, ← window_eq_leBytes (by omega) hsize, ← hfield,
    ← hpad, ← window_eq_leBytes (by omega) hpackets, ← window_eq_leBytes (by omega) hmtu,
    window_append, window_append, window_append, window_append, window_append, window_append,
    List.append_assoc]
  exact hparts

end Format

section Loading

variable {env : Env} {n : Nat} {s : Target} {path : Path} {key : SessionTuple} {f out : Bytes}

theorem freadItem_ends (henv : env.Reliable) {size : Nat} {rest : Bytes}
    {Q : Bytes × Bytes → Nat → Target → Prop} :
    Prog.Ends (freadItem env path size rest) Q n s ↔
      Q (rest.take size, rest.drop size) (n + 1) s := by
  simp [freadItem, henv n _]

/-- What a load of `f` answers and leaves: the bitmap from a sidecar for the
caller, which stays, or no answer, zeros and no file. -/
structure Gated (key : SessionTuple) (path : Path) (f out : Bytes) (r : Bool × Bytes)
    (t : Target) : Prop where
  accepts : r.1 = true ↔ ∃ bitmap, bitmap.length = out.length ∧ SidecarFor key f bitmap
  bitmap : r.1 = true → r.2.length = out.length ∧ SidecarFor key f r.2
  zeros : r.1 = false → out = List.replicate out.length 0 → r.2 = List.replicate out.length 0
  file : t.content path = if r.1 then some f else none

/-- A rejected sidecar is removed. -/
theorem discard_ends (henv : env.Reliable) (hfile : s.content path = some f)
    (hreject : ∀ bitmap : Bytes, bitmap.length = out.length → ¬ SidecarFor key f bitmap)
    {left : Bytes}
    (hleft : out = List.replicate out.length 0 → left = List.replicate out.length 0) :
    Prog.Ends (do
      let _ ← unlink env path
      return (false, left)) (fun r _ t => Gated key path f out r t) n s := by
  obtain ⟨file, hlookup, -⟩ := exists_lookup hfile
  rw [Prog.ends_bind, unlink_ends (henv _ _) hlookup, Prog.ends_pure]
  refine ⟨⟨fun h => (by cases h), ?_⟩, fun h => (by cases h), fun _ => hleft,
    Target.content_remove⟩
  rintro ⟨bitmap, hlen, hfor⟩
  exact absurd hfor (hreject bitmap hlen)

theorem sessionStateLoad_gated (henv : env.Reliable) (hkey : key.Hashed)
    (hfile : s.content path = some f) :
    Prog.Ends (sessionStateLoad env path key out) (fun r _ t => Gated key path f out r t) n s := by
  unfold sessionStateLoad
  rw [Prog.ends_bind, fopenRead_ends (henv _ _), hfile]
  simp only [Prog.ends_bind, freadItem_ends henv, List.drop_drop, Nat.reduceAdd]
  have hheader : (f.take 4).length = 4 ∧ ((f.drop 4).take 4).length = 4 ∧
      ((f.drop 8).take 65).length = 65 ∧ ((f.drop 73).take 4).length = 4 ∧
      ((f.drop 77).take 2).length = 2 ∧ ((f.drop 79).take 2).length = 2 ↔ 81 ≤ f.length := by
    simp only [List.length_take, List.length_drop]
    omega
  have hreject : ¬ HeaderMatches key f → ∀ bitmap : Bytes, bitmap.length = out.length →
      ¬ SidecarFor key f bitmap := fun hnot _ _ hfor => hnot (hfor.matches hkey).1
  split
  next hlong =>
    split
    next hok =>
      have hmatches : HeaderMatches key f := ⟨hheader.mp hlong, hok⟩
      split
      next hsome =>
        rw [Prog.ends_bind, freadItem_ends henv]
        dsimp only
        split
        next hfull =>
          rw [Prog.ends_pure]
          have hfor := sidecarFor_of_matches hkey hmatches (List.take_prefix out.length _)
          exact ⟨⟨fun _ => ⟨_, hfull, hfor⟩, fun _ => rfl⟩, fun _ => ⟨hfull, hfor⟩,
            fun h => (by cases h), hfile⟩
        next hshort =>
          refine discard_ends henv hfile (fun bitmap hlen hfor => ?_) fun _ => rfl
          have hinitial := (hfor.matches hkey).2.length_le
          rw [List.length_take] at hshort
          omega
      next hnone =>
        rw [Prog.ends_pure]
        have hfor := sidecarFor_of_matches hkey hmatches (List.take_prefix 0 _)
        have hout : out = [] := List.length_eq_zero_iff.mp (by omega)
        rw [hout]
        exact ⟨⟨fun _ => ⟨_, rfl, hfor⟩, fun _ => rfl⟩, fun _ => ⟨rfl, hfor⟩,
          fun h => (by cases h), hfile⟩
    next hbad => exact discard_ends henv hfile (hreject fun hm => hbad hm.2) id
  next hcut => exact discard_ends henv hfile (hreject fun hm => hcut (hheader.mpr hm.1)) id

end Loading

/-! ### Round trip -/

section RoundTrip

variable {key key' : SessionTuple} {f bitmap : Bytes}

/-- A header names one transfer. -/
theorem HeaderMatches.unique (h : HeaderMatches key f) (h' : HeaderMatches key' f) :
    key' = key := by
  obtain ⟨-, hok⟩ := h
  obtain ⟨-, hok'⟩ := h'
  simp only [sessionHeaderOk, Bool.and_eq_true, decide_eq_true_eq] at hok hok'
  obtain ⟨⟨⟨⟨-, hhash⟩, hsize⟩, hpackets⟩, hmtu⟩ := hok
  obtain ⟨⟨⟨⟨-, hhash'⟩, hsize'⟩, hpackets'⟩, hmtu'⟩ := hok'
  obtain ⟨size, hash, packets, mtu⟩ := key
  obtain ⟨size', hash', packets', mtu'⟩ := key'
  rw [SessionTuple.mk.injEq]
  exact ⟨UInt32.toNat_inj.mp (hsize'.symm.trans hsize), hhash'.symm.trans hhash,
    UInt32.toNat_inj.mp (hpackets'.symm.trans hpackets),
    UInt16.toNat_inj.mp (hmtu'.symm.trans hmtu)⟩

theorem sidecarText_for (hkey : key.Hashed) : SidecarFor key (sidecarText key bitmap) bitmap := by
  refine ⟨0, leBytes 2 0, [], length_leBytes _ _, ?_⟩
  have hbuf : hashBuf key.expectedHash = key.expectedHash ++ [0] := by
    have htake : key.expectedHash.take hashHexLen = key.expectedHash :=
      List.take_of_length_le (le_of_eq hkey.length)
    rw [hashBuf, htake, hkey.length]
    rfl
  simp only [sidecarText, sessionHeader, hbuf, List.flatten_cons, List.flatten_nil,
    List.append_assoc, List.append_nil]

/-- What was saved is loaded for the same transfer and the same size only. -/
theorem Gated.saved {path : Path} {out : Bytes} {r : Bool × Bytes} {t : Target}
    (hkey : key.Hashed) (hkey' : key'.Hashed)
    (h : Gated key' path (sidecarText key bitmap) out r t) :
    r = (true, bitmap) ↔ key' = key ∧ out.length = bitmap.length := by
  have hfor : SidecarFor key (sidecarText key bitmap) bitmap := sidecarText_for hkey
  obtain ⟨hmatches, hinitial⟩ := hfor.matches hkey
  constructor
  · rintro rfl
    obtain ⟨hlen, hfor'⟩ := h.bitmap rfl
    exact ⟨hmatches.unique (hfor'.matches hkey').1, hlen.symm⟩
  · rintro ⟨rfl, hlen⟩
    have haccepted : r.1 = true := h.accepts.mpr ⟨bitmap, hlen.symm, hfor⟩
    obtain ⟨hlen', hfor'⟩ := h.bitmap haccepted
    have hinitial' := (hfor'.matches hkey').2
    have hsame : r.2 = bitmap :=
      (List.prefix_of_prefix_length_le hinitial' hinitial (by omega)).eq_of_length
        (hlen'.trans hlen)
    exact Prod.ext haccepted hsame

end RoundTrip

section Succeeding

variable {env : Env} {n : Nat} {s : Target} {path : Path} {key : SessionTuple} {bitmap : Bytes}

theorem fwritePieces_ends (henv : env.Reliable) (p : Path) (pieces : List Bytes) :
    ∀ {n : Nat} {s : Target} {f : File}, s.fs.lookup p = some f →
      Prog.Ends (fwritePieces env p pieces true)
        (fun ok _ t => ok = true ∧ ∃ g, t.fs.lookup p = some g) n s := by
  induction pieces with
  | nil =>
      intro n s f hf
      rw [fwritePieces, Prog.ends_pure]
      exact ⟨rfl, f, hf⟩
  | cons piece rest ih =>
      intro n s f hf
      rw [fwritePieces, Prog.ends_bind, fwriteAll_ends henv]
      have hthere : ∃ g, (if piece = [] then s else s.append p piece (env.clock n)).fs.lookup p =
          some g := by
        split
        · exact ⟨f, hf⟩
        · simp [Target.append, hf]
      obtain ⟨g, hg⟩ := hthere
      exact ih hg

/-- A save succeeds when no call fails and the temporary path fits. -/
theorem sessionStateSave_succeeds (henv : env.Reliable)
    (hpath : (sessionTmpPath path).length < 640) :
    Prog.Ends (sessionStateSave env path key bitmap) (fun saved _ _ => saved = true) n s := by
  have hdir : Prog.Ends (sessionStateDirEnsure env) (fun made _ _ => made = true) n s := by
    unfold sessionStateDirEnsure
    rw [Prog.ends_bind]
    refine (mkdirP_ends (fun _ _ => henv _ _) _).imp ?_
    rintro _ m t ⟨rfl, rfl⟩
    simp only [if_true]
    rw [Prog.ends_bind]
    refine (Prog.Total.call _ m _).imp fun _ _ _ _ => ?_
    rw [Prog.ends_pure]
  have hfits : ¬ (sessionTmpPath path).length ≥ 640 := by omega
  unfold sessionStateSave
  rw [Prog.ends_bind]
  refine hdir.imp ?_
  rintro _ m t rfl
  simp only [if_true, if_neg hfits]
  rw [Prog.ends_bind, fopenWrite_ends henv]
  simp only [if_true]
  rw [Prog.ends_bind]
  refine (fwritePieces_ends henv _ _ Target.lookup_put).imp ?_
  rintro _ m t ⟨rfl, g, hg⟩
  have hflush : Prog.Ends (fflush env (sessionTmpPath path))
      (fun ok _ u => ok = true ∧ u = t) m t := by
    simp [fflush, henv m _]
  rw [Prog.ends_bind]
  refine hflush.imp ?_
  rintro _ m _ ⟨rfl, rfl⟩
  rw [Prog.ends_bind, fcloseFlushed, if_pos rfl, Prog.ends_call]
  simp only [Bool.and_self, if_true, List.getLastD_nil]
  rw [Prog.ends_bind, rename_ends henv hg sessionTmpPath_ne.symm, if_pos rfl, Prog.ends_pure]

end Succeeding

/-- The sidecar of a packet transfer. A load takes the bitmap exactly from a file
whose header is the caller's, and removes any other file; what a save wrote is
loaded for its own transfer only; and a save that fails or is killed leaves the
old file or the new one. -/
theorem session_sidecar (path : Path) (key : SessionTuple) (hkey : key.Hashed) :
    (∀ (env : Env) (n : Nat) (s : Target) (f out : Bytes), env.Reliable →
      s.content path = some f →
      Prog.Ends (sessionStateLoad env path key out) (fun r _ t => Gated key path f out r t) n s) ∧
    (∀ (env env' : Env) (n m : Nat) (s : Target) (bitmap out : Bytes) (key' : SessionTuple),
      env'.Reliable → key'.Hashed →
      (sessionStateSave env path key bitmap n s).result = some true →
      Prog.Ends (sessionStateLoad env' path key' out)
        (fun r _ _ => r = (true, bitmap) ↔ key' = key ∧ out.length = bitmap.length) m
        (sessionStateSave env path key bitmap n s).state) ∧
    (∀ (env : Env) (n : Nat) (s : Target) (bitmap : Bytes),
      Prog.wp (sessionStateSave env path key bitmap)
        (SidecarKept path (s.content path) (sidecarText key bitmap))
        (fun saved _ t => t.content path =
          if saved then some (sidecarText key bitmap) else s.content path) n s) := by
  refine ⟨fun env n s f out henv hfile => sessionStateLoad_gated henv hkey hfile, ?_,
    fun env n s bitmap => sessionStateSave_wp rfl⟩
  intro env env' n m s bitmap out key' henv' hkey' hsaved
  have hsave : Prog.wp (sessionStateSave env path key bitmap)
      (SidecarKept path (s.content path) (sidecarText key bitmap))
      (fun saved _ t => t.content path =
        if saved then some (sidecarText key bitmap) else s.content path) n s :=
    sessionStateSave_wp rfl
  have hend := hsave.2
  rw [hsaved] at hend
  exact (sessionStateLoad_gated henv' hkey' hend).imp fun r _ _ h => h.saved hkey hkey'

section Demo

def demoTuple : SessionTuple := ⟨1000, List.replicate 64 97, 5, 248⟩

theorem demoTuple_hashed : demoTuple.Hashed := ⟨rfl, by decide⟩

def demoSidecar : Path := ascii "/var/lib/satdeploy/state/demo.dtpstate"

/-- A bitmap of five packets is saved and loaded again. -/
theorem session_sidecar_demo :
    Prog.Ends (sessionStateLoad (calmEnv demoTime) demoSidecar demoTuple [0])
      (fun r _ _ => r = (true, [0x15])) 0
      (sessionStateSave (calmEnv demoTime) demoSidecar demoTuple [0x15] 0
        ⟨∅, none, .zero⟩).state := by
  have henv := calmEnv_reliable demoTime
  have hfits : (sessionTmpPath demoSidecar).length < 640 := by decide
  obtain ⟨saved, hresult, rfl⟩ := sessionStateSave_succeeds (n := 0)
    (s := ⟨∅, none, .zero⟩) henv hfits
  have hload := (session_sidecar demoSidecar demoTuple demoTuple_hashed).2.1 _ _ 0 0 _ _ [0] _
    henv demoTuple_hashed hresult
  exact hload.imp fun r _ _ h => h.mpr ⟨rfl, rfl⟩

end Demo

end SatDeploy.Agent
