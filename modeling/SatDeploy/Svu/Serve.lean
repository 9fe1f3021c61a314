import SatDeploy.Svu.Session

/-!
The ground side of a transfer, `svu/svu_serve.c`: what the serve loop sends in
answer to one control packet. Offsets are 32-bit, so a loop may wrap and run
for ever; `none` stands for that. `csp_buffer_get` belongs to libcsp and is a
parameter that says which calls hand out a packet.
-/

namespace SatDeploy.Svu

open Lib

/-- A data packet, cut at its 16-bit length field. -/
def blastPacket (src : Bytes) (session : UInt32) (fragment : Span) : Bytes :=
  (svuPut32 (UInt32.ofNat fragment.start) ++ svuPut32 session ++
    slice src fragment.start fragment.stop).take
      ((svuDataHdr + (fragment.stop - fragment.start)) % 2 ^ 16)

/-- The payload span of one packet. -/
def blastPay (mtu : Nat) : Nat :=
  if mtu > svuDataHdr then mtu - svuDataHdr else 1

/-- The fragments the loop of `blast_interval` sends from offset `off` on;
`k` counts the packets of this interval. -/
def blastLoop (buffers : Nat → Bool) (pay stop : Nat) :
    Nat → Nat → Nat → Option (List Span)
  | 0, _, _ => none
  | fuel + 1, k, off =>
      if off < stop then
        let len := if (off + pay) % 2 ^ 32 ≤ stop then pay else stop - off
        if buffers k then
          (blastLoop buffers pay stop fuel (k + 1) ((off + pay) % 2 ^ 32)).map
            (⟨off, off + len⟩ :: ·)
        else some []
      else some []

/-- More iterations than 32-bit offsets exist, so running out means the loop
never ends. -/
def blastFuel : Nat := 2 ^ 32 + 1

def blastInterval (buffers : Nat → Bool) (src : Bytes) (session : UInt32)
    (mtu start stop : Nat) : Option (List Bytes) :=
  (blastLoop buffers (blastPay mtu) stop blastFuel 0 start).map fun fragments =>
    fragments.map (blastPacket src session)

/-- One interval of a request, clamped to the file. -/
def serveInterval (buffers : Nat → Bool) (src : Bytes) (total : Nat)
    (session : UInt32) (mtu : Nat) (v : SvuWireInterval) : Option (List Bytes) :=
  let s := v.start.toNat
  let e := if v.stop.toNat > total then total else v.stop.toNat
  if s < e then blastInterval buffers src session mtu s e else some []

/-- The intervals of a request in order; `i` counts them. -/
def serveIntervals (buffers : Nat → Nat → Bool) (src : Bytes) (total : Nat)
    (session : UInt32) (mtu : Nat) : Nat → List SvuWireInterval → Option (List Bytes)
  | _, [] => some []
  | i, v :: rest => do
      let first ← serveInterval (buffers i) src total session mtu v
      let later ← serveIntervals buffers src total session mtu (i + 1) rest
      return first ++ later

/-- The data packets `svu_serve_loop` sends for a decoded request. -/
def serveData (buffers : Nat → Nat → Bool) (src : Bytes) (total : Nat)
    (req : SvuReq) : Option (List Bytes) :=
  let mtu := if req.mtu.toNat > svuDataHdr then req.mtu.toNat else 256
  if req.nofIntervals = 0 then
    blastInterval (buffers 0) src req.sessionId mtu 0 total
  else
    serveIntervals buffers src total req.sessionId mtu 0
      (req.intervals.take req.nofIntervals.toNat)

def manifestChunk : Nat := 200

/-- The chunks `send_manifest` sends from offset `off` on. -/
def manifestLoop (buffers : Nat → Bool) (manifest : Bytes) (bytes : Nat) :
    Nat → Nat → Nat → Option (List Bytes)
  | 0, _, _ => none
  | fuel + 1, k, off =>
      if off < bytes then
        let len := if (off + manifestChunk) % 2 ^ 32 ≤ bytes then manifestChunk
          else bytes - off
        if buffers k then
          (manifestLoop buffers manifest bytes fuel (k + 1)
            ((off + manifestChunk) % 2 ^ 32)).map
            ((svuPut32 (UInt32.ofNat off) ++ slice manifest off (off + len)) :: ·)
        else some []
      else some []

def sendManifest (buffers : Nat → Bool) (manifest : Bytes) (bytes : Nat) :
    Option (List Bytes) :=
  manifestLoop buffers manifest bytes blastFuel 0 0

structure ServeReply where
  ctrl : List Bytes
  data : List Bytes
  deriving DecidableEq, Repr

/-- The libcsp buffers of one request: the response header, the manifest
chunks, and the packets of each interval. -/
structure ServeBuffers where
  resp : Bool
  chunk : Nat → Bool
  data : Nat → Nat → Bool

/-- The response header and the manifest chunks, sent when a buffer for the
header is to be had. -/
def serveCtrl (buffers : ServeBuffers) (src : Bytes) (total blockSize : Nat)
    (req : SvuReq) : Option (List Bytes) :=
  if buffers.resp then
    let manifest := ciSvuManifest src total blockSize
    let header := svuPut32 svuMagicResp ++ svuPut32 req.sessionId ++
      svuPut32 (UInt32.ofNat total) ++ svuPut32 (UInt32.ofNat blockSize) ++
      svuPut32 (UInt32.ofNat manifest.1)
    (sendManifest buffers.chunk manifest.2 (manifest.1 * hashLen % 2 ^ 32)).map (header :: ·)
  else some []

/-- One turn of `svu_serve_loop`: a packet read from an accepted connection.
A packet that does not decode gets no answer. -/
def svuServe (buffers : ServeBuffers) (src : Bytes) (total blockSize : Nat)
    (packet : Bytes) : Option ServeReply :=
  match svuReqDecode packet with
  | none => some ⟨[], []⟩
  | some req => do
      let ctrl ← serveCtrl buffers src total blockSize req
      let data ← serveData buffers.data src total req
      return ⟨ctrl, data⟩

section Requests

variable {buffers : Nat → Nat → Bool} {src : Bytes} {total : Nat}

/-- The server answers what the client encoded. -/
theorem serveData_trimmed (r : SvuReq) (hnof : r.nofIntervals.toNat ≤ svuMaxIntervals) :
    serveData buffers src total r.trimmed = serveData buffers src total r := by
  have htake := r.take_trimmed hnof
  unfold serveData
  rw [show r.trimmed.nofIntervals = r.nofIntervals from rfl, htake]
  rfl

theorem svuServe_encode {buffers : ServeBuffers} {blockSize : Nat} {r : SvuReq}
    {reply : ServeReply} (hmagic : r.magic = svuMagicReq)
    (hnof : r.nofIntervals.toNat ≤ svuMaxIntervals)
    (hserve : svuServe buffers src total blockSize (svuReqEncode r) = some reply) :
    serveData buffers.data src total r = some reply.data := by
  have hdecode := svuReqDecode_encode r [] hmagic hnof
  rw [List.append_nil] at hdecode
  unfold svuServe at hserve
  rw [hdecode] at hserve
  simp only [Option.bind_eq_bind, Option.bind_eq_some_iff, serveData_trimmed r hnof] at hserve
  obtain ⟨ctrl, -, data, hdata, hreply⟩ := hserve
  rw [hdata, ← (Option.some.inj hreply : _ = reply)]

theorem buildRequest_intervals (cfg : ClientConfig) {st : ClientState}
    (hmax : st.nreq ≤ svuMaxIntervals) (hlen : st.nreq ≤ st.ivs.length) :
    (buildRequest cfg st).nofIntervals.toNat = st.nreq ∧
      (buildRequest cfg st).intervals.take st.nreq =
        (st.ivs.take st.nreq).map wireInterval := by
  constructor
  · apply UInt32.toNat_ofNat_of_lt'
    exact lt_of_le_of_lt hmax (by decide)
  · have hcount : ((st.ivs.take st.nreq).map wireInterval).length = st.nreq := by
      rw [List.length_map, List.length_take, Nat.min_eq_left hlen]
    unfold buildRequest
    dsimp only
    rw [take_fillIntervals hmax (by rw [hcount]), List.take_of_length_le (by rw [hcount])]

/-- The request of a further round carries the first 32 ranges of the verdict. -/
theorem nextState_request (cfg : ClientConfig) (s : CiSvu) :
    let st := nextState s (ciSvuVerify s svuMaxIntervals)
    st.nreq = min (verifyRanges s).length svuMaxIntervals ∧
      st.ivs.take st.nreq = (verifyRanges s).take svuMaxIntervals ∧
      (buildRequest cfg st).nofIntervals.toNat = st.nreq ∧
      (buildRequest cfg st).intervals.take st.nreq =
        ((verifyRanges s).take svuMaxIntervals).map wireInterval := by
  intro st
  have hnreq : st.nreq = min (verifyRanges s).length svuMaxIntervals := by
    simp only [st, nextState, ciSvuVerify_eq]
    split <;> omega
  have hivs : st.ivs = (verifyRanges s).take svuMaxIntervals := by
    simp only [st, nextState, ciSvuVerify_eq]
  have hlen : st.ivs.length = st.nreq := by
    rw [hivs, hnreq, List.length_take, Nat.min_comm]
  have htake : st.ivs.take st.nreq = (verifyRanges s).take svuMaxIntervals := by
    rw [← hivs, ← hlen, List.take_length]
  obtain ⟨hnof, hcells⟩ := buildRequest_intervals cfg
    (by rw [hnreq]; exact Nat.min_le_right _ _) (by rw [hlen])
  exact ⟨hnreq, htake, hnof, by rw [hcells, htake]⟩

end Requests

section NoWrap

variable {pay stop : Nat}

/-- Where no offset wraps, the loop ends and its fragments lie inside the
interval, one after the other; with every buffer available they tile it. -/
theorem blastLoop_spec (buffers : Nat → Bool) (hpay : 0 < pay)
    (hwrap : stop + pay ≤ 2 ^ 32) (fuel : Nat) : ∀ k off, stop - off < fuel →
    ∃ fragments, blastLoop buffers pay stop fuel k off = some fragments ∧
      (∀ f ∈ fragments, off ≤ f.start ∧ f.start < f.stop ∧ f.stop ≤ stop ∧
        f.stop - f.start ≤ pay) ∧
      Span.totalLength fragments ≤ stop - off ∧
      ((∀ j, buffers j = true) →
        ∀ i, off ≤ i → i < stop → Span.Covers fragments i) := by
  induction fuel with
  | zero =>
      intro k off hfuel
      omega
  | succ fuel ih =>
      intro k off hfuel
      unfold blastLoop
      split
      next hoff =>
        have hmod : (off + pay) % 2 ^ 32 = off + pay :=
          Nat.mod_eq_of_lt (by omega)
        rw [hmod]
        dsimp only
        split
        next hbuffer =>
          obtain ⟨later, hlater, hinside, hlength, hcovers⟩ :=
            ih (k + 1) (off + pay) (by omega)
          generalize hlen : (if off + pay ≤ stop then pay else stop - off) = len
          have hlenBounds : 0 < len ∧ off + len ≤ stop ∧ len ≤ pay ∧
              (off + len = off + pay ∨ off + len = stop) := by
            rw [← hlen]
            split <;> omega
          refine ⟨⟨off, off + len⟩ :: later, ?_, ?_, ?_, ?_⟩
          · rw [hlater]
            rfl
          · intro f hf
            rcases List.mem_cons.mp hf with rfl | hf
            · exact ⟨Nat.le_refl _, by simp; omega, by simp; omega, by simp; omega⟩
            · obtain ⟨hlow, hrest⟩ := hinside f hf
              exact ⟨by omega, hrest⟩
          · rw [Span.totalLength_cons]
            dsimp only
            omega
          · intro hall i hlow hhigh
            rw [Span.covers_cons]
            rcases Nat.lt_or_ge i (off + len) with hi | hi
            · exact Or.inl ⟨hlow, hi⟩
            · exact Or.inr (hcovers hall i (by omega) hhigh)
        next hbuffer =>
          refine ⟨[], rfl, by simp, by simp, ?_⟩
          intro hall
          exact absurd (hall k) hbuffer
      next hoff =>
        refine ⟨[], rfl, by simp, by simp, ?_⟩
        intro _ i hlow hhigh
        omega

/-- A fragment of the artifact that one data packet can carry. -/
structure Fits (src : Bytes) (f : Span) : Prop where
  nonempty : f.start < f.stop
  inside : f.stop ≤ src.length
  small : f.stop - f.start < 2 ^ 15

variable {src : Bytes} {session : UInt32} {mtu : Nat}

theorem blastPacket_eq {f : Span} (hf : Fits src f) :
    blastPacket src session f =
      svuPut32 (UInt32.ofNat f.start) ++
        (svuPut32 session ++ slice src f.start f.stop) := by
  have hlen : (slice src f.start f.stop).length = f.stop - f.start := by
    have := hf.inside
    rw [length_slice]
    omega
  have hsmall := hf.small
  unfold blastPacket
  rw [List.append_assoc, List.take_of_length_le]
  simp only [List.length_append, length_svuPut32, hlen, svuDataHdr]
  omega

theorem length_blastPacket {f : Span} (hf : Fits src f) :
    (blastPacket src session f).length = svuDataHdr + (f.stop - f.start) := by
  have := hf.inside
  rw [blastPacket_eq hf]
  simp only [List.length_append, length_svuPut32, length_slice, svuDataHdr]
  omega

/-- The packet sizes `satdeploy_deploy_cmd` lets through. -/
def mtuAllowed (mtu : Nat) : Prop := 64 ≤ mtu ∧ mtu ≤ 1024

theorem blastPay_bounds (hmtu : mtuAllowed mtu) : 0 < blastPay mtu ∧ blastPay mtu ≤ 1016 := by
  unfold mtuAllowed at hmtu
  unfold blastPay svuDataHdr
  split <;> omega

theorem blastInterval_spec (buffers : Nat → Bool) (session : UInt32)
    (hmtu : mtuAllowed mtu) (hsrc : src.length + 1024 < 2 ^ 32) (start : Nat) {stop : Nat}
    (hstop : stop ≤ src.length) :
    ∃ fragments, blastInterval buffers src session mtu start stop =
        some (fragments.map (blastPacket src session)) ∧
      (∀ f ∈ fragments, Fits src f) ∧
      Span.totalLength fragments ≤ stop - start ∧
      (∀ i, Span.Covers fragments i → start ≤ i ∧ i < stop) ∧
      ((∀ j, buffers j = true) →
        ∀ i, start ≤ i → i < stop → Span.Covers fragments i) := by
  obtain ⟨hpos, hpay⟩ := blastPay_bounds hmtu
  have hfuel : stop - start < blastFuel := by
    unfold blastFuel
    omega
  obtain ⟨fragments, hloop, hinside, hlength, hcovers⟩ :=
    blastLoop_spec buffers hpos (by omega) blastFuel 0 start hfuel
  refine ⟨fragments, ?_, ?_, hlength, ?_, hcovers⟩
  · unfold blastInterval
    rw [hloop]
    rfl
  · intro f hf
    obtain ⟨-, hne, hle, hsmall⟩ := hinside f hf
    exact ⟨hne, by omega, by omega⟩
  · rintro i ⟨f, hf, hlow, hhigh⟩
    obtain ⟨hstart, -, hle, -⟩ := hinside f hf
    exact ⟨by omega, by omega⟩

theorem wireInterval_toNat {v : Span} (hstart : v.start < 2 ^ 32)
    (hstop : v.stop < 2 ^ 32) :
    (wireInterval v).start.toNat = v.start ∧ (wireInterval v).stop.toNat = v.stop :=
  ⟨UInt32.toNat_ofNat_of_lt' hstart, UInt32.toNat_ofNat_of_lt' hstop⟩

/-- The packets of one interval carry bytes of it and no more of them than it
holds; with every buffer available they carry every byte of it that the
artifact has. -/
theorem serveInterval_spec (buffers : Nat → Bool) (hmtu : mtuAllowed mtu)
    (hsrc : src.length + 1024 < 2 ^ 32) {v : Span} (hstart : v.start < 2 ^ 32)
    (hstop : v.stop < 2 ^ 32) :
    ∃ fragments, serveInterval buffers src src.length session mtu (wireInterval v) =
        some (fragments.map (blastPacket src session)) ∧
      (∀ f ∈ fragments, Fits src f) ∧
      Span.totalLength fragments ≤ v.stop - v.start ∧
      (∀ i, Span.Covers fragments i → v.start ≤ i ∧ i < v.stop) ∧
      ((∀ j, buffers j = true) → ∀ i, v.start ≤ i → i < v.stop → i < src.length →
        Span.Covers fragments i) := by
  unfold serveInterval
  rw [(wireInterval_toNat hstart hstop).1, (wireInterval_toNat hstart hstop).2]
  generalize hclamp : (if v.stop > src.length then src.length else v.stop) = stop
  have hstopLe : stop ≤ src.length ∧ stop ≤ v.stop := by
    rw [← hclamp]
    split <;> omega
  have hbelow : ∀ i, i < v.stop → i < src.length → i < stop := by
    intro i
    rw [← hclamp]
    split <;> omega
  dsimp only
  split
  next hopen =>
    obtain ⟨fragments, hblast, hfits, hlength, hinside, hcovers⟩ :=
      blastInterval_spec buffers session hmtu hsrc v.start hstopLe.1
    refine ⟨fragments, hblast, hfits, by omega, ?_, ?_⟩
    · intro i hi
      have := hinside i hi
      omega
    · intro hall i hlow hhigh hlt
      exact hcovers hall i hlow (hbelow i hhigh hlt)
  next hclosed =>
    refine ⟨[], rfl, by simp, by simp, by simp, ?_⟩
    intro _ i hlow hhigh hlt
    have := hbelow i hhigh hlt
    omega

theorem serveIntervals_spec (buffers : Nat → Nat → Bool) (session : UInt32)
    (hmtu : mtuAllowed mtu) (hsrc : src.length + 1024 < 2 ^ 32) (ranges : List Span) : ∀ n,
    (∀ v ∈ ranges, v.start < 2 ^ 32 ∧ v.stop < 2 ^ 32) →
    ∃ fragments, serveIntervals buffers src src.length session mtu n
        (ranges.map wireInterval) = some (fragments.map (blastPacket src session)) ∧
      (∀ f ∈ fragments, Fits src f) ∧
      Span.totalLength fragments ≤ Span.totalLength ranges ∧
      (∀ i, Span.Covers fragments i → Span.Covers ranges i) ∧
      ((∀ j k, buffers j k = true) →
        ∀ i, Span.Covers ranges i → i < src.length → Span.Covers fragments i) := by
  induction ranges with
  | nil =>
      intro n _
      exact ⟨[], rfl, by simp, Nat.le_refl _, fun _ h => h, fun _ _ h _ => h⟩
  | cons v ranges ih =>
      intro n hbounds
      obtain ⟨hvstart, hvstop⟩ := hbounds v (by simp)
      obtain ⟨first, hfirst, hfitsFirst, hlengthFirst, hinsideFirst, hcoversFirst⟩ :=
        serveInterval_spec (buffers n) hmtu hsrc hvstart hvstop
      obtain ⟨later, hlater, hfits, hlength, hinside, hcovers⟩ :=
        ih (n + 1) (fun w hw => hbounds w (by simp [hw]))
      refine ⟨first ++ later, ?_, ?_, ?_, ?_, ?_⟩
      · rw [List.map_cons, serveIntervals, hfirst, hlater, List.map_append]
        rfl
      · intro f hf
        rcases List.mem_append.mp hf with hf | hf
        · exact hfitsFirst f hf
        · exact hfits f hf
      · rw [Span.totalLength_append, Span.totalLength_cons]
        omega
      · intro i hi
        rw [Span.covers_cons]
        rcases (Span.covers_append first later i).mp hi with hi | hi
        · exact Or.inl (hinsideFirst i hi)
        · exact Or.inr (hinside i hi)
      · intro hall i hi hlt
        rw [Span.covers_append]
        rcases (Span.covers_cons v ranges i).mp hi with ⟨hlow, hhigh⟩ | hi
        · exact Or.inl (hcoversFirst (hall n) i hlow hhigh hlt)
        · exact Or.inr (hcovers hall i hi hlt)

end NoWrap

end SatDeploy.Svu
