import SatDeploy.Svu.HookTrace
import SatDeploy.Svu.Manifest
import SatDeploy.Svu.Budget
import SatDeploy.Svu.Tiling

/-!
Both ends of a transfer. The server of an artifact answers requests over a link
that loses, repeats, delays and reorders packets but makes none up. Whatever it
does, every byte a run keeps is the artifact's or was there before, and without
a seed only the artifact itself is ever written.
-/

namespace SatDeploy.Svu

open Lib

/-- The server of `src` answers `packet`, a request with an mtu of 64 to 1024, with
`reply`. How much of the answer it sends depends on the libcsp buffers it finds. -/
def Serves (src packet : Bytes) (reply : ServeReply) : Prop :=
  ∃ buffers req, svuReqDecode packet = some req ∧ mtuAllowed req.mtu.toNat ∧
    svuServe buffers src src.length 4096 packet = some reply

/-- Whatever arrives was sent by the server of `src`, at some time and in answer to
some request with an mtu of 64 to 1024. -/
structure Honest (src : Bytes) (env : ClientEnv) : Prop where
  ctrl : ∀ round attempt, ∀ p ∈ (env.ctrl round attempt).packets,
    ∃ packet reply, Serves src packet reply ∧ p ∈ reply.ctrl
  data : ∀ round, ∀ packets ∈ env.drains round, ∀ p ∈ packets,
    ∃ packet reply, Serves src packet reply ∧ p ∈ reply.data

/-- A data packet of the artifact. -/
def IsData (src p : Bytes) : Prop :=
  ∃ session f, Fits src f ∧ p = blastPacket src session f

def servedHeader (src : Bytes) (session : UInt32) : Bytes :=
  respHeader session (UInt32.ofNat src.length) (UInt32.ofNat 4096)
    (UInt32.ofNat (ciSvuNblocks src.length 4096))

/-- What an exchange with the server of `src` comes to. -/
def servedReply (src : Bytes) : CtrlReply :=
  ⟨src.length, 4096, ciSvuNblocks src.length 4096, (servedManifest src).map some⟩

section Messages

variable {src packet p : Bytes} {reply : ServeReply}

/-- The data packets that answer a request carry fragments of the artifact, in the
ranges it asks for. -/
theorem serveData_fragments (hsrc : src.length + 1024 < 2 ^ 32) {req : SvuReq}
    (hmtu : mtuAllowed req.mtu.toNat) (buffers : Nat → Nat → Bool) :
    ∃ fragments : List Span, serveData buffers src src.length req =
        some (fragments.map (blastPacket src req.sessionId)) ∧
      ∀ f ∈ fragments, Fits src f := by
  have hwide : req.mtu.toNat > svuDataHdr := lt_of_lt_of_le (by decide) hmtu.1
  unfold serveData
  rw [if_pos hwide]
  dsimp only
  split
  · obtain ⟨fragments, hsent, hfits, -⟩ :=
      blastInterval_spec (buffers 0) req.sessionId hmtu hsrc 0 (Nat.le_refl src.length)
    exact ⟨fragments, hsent, hfits⟩
  · have hbounds : ∀ v ∈ req.ranges, v.start < 2 ^ 32 ∧ v.stop < 2 ^ 32 := by
      intro v hv
      obtain ⟨w, -, rfl⟩ := List.mem_map.mp hv
      exact ⟨UInt32.toNat_lt w.start, UInt32.toNat_lt w.stop⟩
    obtain ⟨fragments, hsent, hfits, -⟩ :=
      serveIntervals_spec buffers req.sessionId hmtu hsrc req.ranges 0 hbounds
    rw [req.map_wireInterval_ranges] at hsent
    exact ⟨fragments, hsent, hfits⟩

/-- The control packets that answer a request. -/
theorem serveCtrl_packets (buffers : ServeBuffers) (src : Bytes) (req : SvuReq) :
    ∃ ctrl, serveCtrl buffers src src.length 4096 req = some ctrl ∧
      ∀ p ∈ ctrl, p = servedHeader src req.sessionId ∨ IsChunk (servedManifest src) p := by
  obtain ⟨hbytes, hmax⟩ := servedManifest_bytes src
  obtain ⟨chunks, hsend, hall, -⟩ := sendManifest_spec buffers.chunk hmax
  unfold serveCtrl
  split
  · refine ⟨servedHeader src req.sessionId :: chunks, ?_, ?_⟩
    · rw [← hbytes] at hsend
      exact congrArg (Option.map _) hsend
    · intro p hp
      rcases List.mem_cons.mp hp with rfl | hp
      · exact Or.inl rfl
      · exact Or.inr (hall p hp)
  · exact ⟨[], rfl, by simp⟩

/-- The server comes to the end of its answer. -/
theorem svuServe_ends (hsrc : src.length + 1024 < 2 ^ 32) {req : SvuReq}
    (hdecode : svuReqDecode packet = some req) (hmtu : mtuAllowed req.mtu.toNat)
    (buffers : ServeBuffers) :
    ∃ reply, svuServe buffers src src.length 4096 packet = some reply ∧
      (∀ p ∈ reply.ctrl, p = servedHeader src req.sessionId ∨
        IsChunk (servedManifest src) p) ∧
      ∃ fragments : List Span, reply.data = fragments.map (blastPacket src req.sessionId) ∧
        ∀ f ∈ fragments, Fits src f := by
  obtain ⟨ctrl, hctrl, hpackets⟩ := serveCtrl_packets buffers src req
  obtain ⟨fragments, hdata, hfits⟩ := serveData_fragments hsrc hmtu buffers.data
  refine ⟨⟨ctrl, fragments.map (blastPacket src req.sessionId)⟩, ?_, hpackets,
    fragments, rfl, hfits⟩
  unfold svuServe
  simp only [hdecode, hctrl, hdata]
  rfl

theorem Serves.isData (hsrc : src.length + 1024 < 2 ^ 32) (h : Serves src packet reply)
    (hp : p ∈ reply.data) : IsData src p := by
  obtain ⟨buffers, req, hdecode, hmtu, hserve⟩ := h
  obtain ⟨reply', hserve', -, fragments, hdata, hfits⟩ :=
    svuServe_ends hsrc hdecode hmtu buffers
  rw [Option.some.inj (hserve.symm.trans hserve'), hdata] at hp
  obtain ⟨f, hf, rfl⟩ := List.mem_map.mp hp
  exact ⟨req.sessionId, f, hfits f hf, rfl⟩

theorem Serves.ctrl_cases (hsrc : src.length + 1024 < 2 ^ 32) (h : Serves src packet reply)
    (hp : p ∈ reply.ctrl) :
    (∃ session, p = servedHeader src session) ∨ IsChunk (servedManifest src) p := by
  obtain ⟨buffers, req, hdecode, hmtu, hserve⟩ := h
  obtain ⟨reply', hserve', hctrl, -⟩ := svuServe_ends hsrc hdecode hmtu buffers
  rw [Option.some.inj (hserve.symm.trans hserve')] at hp
  exact (hctrl p hp).imp_left fun hheader => ⟨_, hheader⟩

/-- What the client asks for is answered, whichever buffers the server finds. -/
theorem encoded_served (hsrc : src.length + 1024 < 2 ^ 32) {req : SvuReq}
    (hmagic : req.magic = svuMagicReq) (hmtu : mtuAllowed req.mtu.toNat)
    (hnof : req.nofIntervals.toNat ≤ svuMaxIntervals) (buffers : ServeBuffers) :
    ∃ reply, svuServe buffers src src.length 4096 (svuReqEncode req) = some reply ∧
      Serves src (svuReqEncode req) reply := by
  have hdecode := svuReqDecode_encode req [] hmagic hnof
  rw [List.append_nil] at hdecode
  obtain ⟨reply, hserve, -⟩ := svuServe_ends hsrc hdecode hmtu buffers
  exact ⟨reply, hserve, buffers, _, hdecode, hmtu, hserve⟩

end Messages

section Exchange

variable {src p : Bytes} {manBytes : Nat}

/-- No chunk passes for a response header. -/
theorem IsChunk.not_header {manifest : Bytes} (hmax : manifest.length < 2 ^ 32)
    (h : IsChunk manifest p) : svuGet32 p 0 ≠ svuMagicResp := by
  obtain ⟨j, hj, rfl⟩ := h
  intro heq
  have hoff := chunkPacket_offset (manifestPiece manifest j)
    (lt_trans hj hmax)
  rw [heq] at hoff
  have hmagic : svuMagicResp.toNat = 1381324371 := rfl
  rw [hmagic, manifestChunk] at hoff
  omega

theorem servedHeader_magic (src : Bytes) (session : UInt32) :
    svuGet32 (servedHeader src session) 0 = svuMagicResp := by
  unfold servedHeader respHeader
  simp only [List.append_assoc]
  exact svuGet32_put32 _ _

/-- A response header among the chunks is passed over. -/
theorem assembleChunk_header (h : svuGet32 p 0 = svuMagicResp) (a : Assembly) :
    assembleChunk manBytes a p = a := by
  rcases assembleChunk_cases manBytes a p with hsame | ⟨htakes, -⟩
  · exact hsame
  · have hstride := htakes.stride
    rw [h] at hstride
    exact absurd hstride (by decide)

theorem assembleLoop_headers (packets : List Bytes) : ∀ a : Assembly,
    assembleLoop manBytes packets a =
      assembleLoop manBytes (packets.filter fun p => svuGet32 p 0 != svuMagicResp) a := by
  induction packets with
  | nil => exact fun _ => rfl
  | cons p rest ih =>
      intro a
      by_cases hheader : svuGet32 p 0 = svuMagicResp
      · rw [List.filter_cons_of_neg (by simp [hheader]), ← ih a, assembleLoop]
        split
        · rw [assembleChunk_header hheader]
        · cases rest with
          | nil =>
              unfold assembleLoop
              rw [if_neg ‹_›]
          | cons q rest =>
              conv_rhs => unfold assembleLoop
              rw [if_neg ‹_›]
      · rw [List.filter_cons_of_pos (by simpa using hheader)]
        unfold assembleLoop
        split
        · exact ih _
        · rfl

end Exchange


section Replies

variable {src : Bytes} {env : ClientEnv} {round attempt : Nat}

theorem Honest.packets (hsrc : src.length + 1024 < 2 ^ 32) (h : Honest src env) {p : Bytes}
    (hp : p ∈ (env.ctrl round attempt).packets) :
    (∃ session, p = servedHeader src session) ∨ IsChunk (servedManifest src) p := by
  obtain ⟨packet, reply, hserves, hmem⟩ := h.ctrl round attempt p hp
  exact hserves.ctrl_cases hsrc hmem

theorem length_servedManifest_lt (src : Bytes) : (servedManifest src).length < 2 ^ 32 := by
  have hmax := (servedManifest_bytes src).2
  rw [manifestChunk] at hmax
  omega

/-- An exchange with the server, whatever stragglers it reads: if it succeeds, it has
the artifact's manifest; and it does, when it reads the header first and then every
chunk. -/
theorem exchange_served (hsrc : src.length + 1024 < 2 ^ 32) {io : CtrlIo}
    (hpackets : ∀ p ∈ io.packets,
      (∃ session, p = servedHeader src session) ∨ IsChunk (servedManifest src) p) :
    (∀ reply, ctrlExchange io = some reply → reply = servedReply src) ∧
    (io.connected = true ∧ io.buffer = true ∧ io.allocated = true → ∀ session packets,
      io.packets = servedHeader src session :: packets →
      (∀ p, IsChunk (servedManifest src) p → p ∈ packets) →
      ctrlExchange io = some (servedReply src)) := by
  obtain ⟨hbytes, hmax⟩ := servedManifest_bytes src
  -- a header, and behind it headers and chunks in any order
  have hexchange : ∀ session packets, io.connected = true ∧ io.buffer = true ∧
      io.allocated = true → io.packets = servedHeader src session :: packets →
      (∀ reply, ctrlExchange io = some reply → reply = servedReply src) ∧
        ((∀ p, IsChunk (servedManifest src) p → p ∈ packets) →
          ctrlExchange io = some (servedReply src)) := by
    intro session packets hopen hio
    have hsmall : ciSvuNblocks src.length 4096 < 2 ^ 32 := by
      have hlength : (servedManifest src).length = ciSvuNblocks src.length 4096 * hashLen :=
        length_manifest src
      have := length_servedManifest_lt src
      rw [hashLen] at hlength
      omega
    have hanswered := answered_of_respHeader hopen hio
    have hrun := hanswered.ctrlExchange_eq
    rw [UInt32.toNat_ofNat_of_lt' (by rw [UInt32.size]; omega),
      UInt32.toNat_ofNat_of_lt' hsmall, hbytes,
      assembleLoop_headers] at hrun
    have hfresh : (freshAssembly io.stale (servedManifest src).length).Copies
        (servedManifest src) :=
      .start fun i hi => freshAssembly_unmarked hmax hi
    have hchunks : ∀ p ∈ packets.filter fun p => svuGet32 p 0 != svuMagicResp,
        IsChunk (servedManifest src) p := by
      intro p hp
      obtain ⟨hmem, hother⟩ := List.mem_filter.mp hp
      rcases hpackets p (hio ▸ List.mem_cons_of_mem _ hmem) with ⟨old, rfl⟩ | hchunk
      · rw [servedHeader_magic] at hother
        exact absurd hother (by simp)
      · exact hchunk
    obtain ⟨hsame, hends⟩ :=
      assembleLoop_copies (length_servedManifest_lt src) _ hfresh hchunks
    have hreply : ∀ reply, ctrlExchange io = some reply → reply = servedReply src := by
      intro reply hreply
      rw [hrun] at hreply
      obtain ⟨cells, hloop, rfl⟩ := Option.map_eq_some_iff.mp hreply
      rw [hsame cells hloop]
      rfl
    refine ⟨hreply, fun hall => ?_⟩
    obtain ⟨cells, hloop⟩ := hends fun j hj => Or.inr (List.mem_filter.mpr
      ⟨hall _ ⟨j, hj, rfl⟩, by
        simpa using IsChunk.not_header (length_servedManifest_lt src) ⟨j, hj, rfl⟩⟩)
    rw [hloop] at hrun
    exact hrun.trans (congrArg some (hreply _ hrun))
  refine ⟨?_, fun hopen session packets hio => (hexchange session packets hopen hio).2⟩
  intro reply hreply
  -- an exchange that succeeds has read a header first
  have hfirst : ∃ session packets, io.connected = true ∧ io.buffer = true ∧
      io.allocated = true ∧ io.packets = servedHeader src session :: packets := by
    unfold ctrlExchange at hreply
    split at hreply
    · cases hreply
    next hopen =>
    split at hreply
    · cases hreply
    next header packets hio =>
    split at hreply
    · cases hreply
    next hheader =>
    dsimp only at hreply
    split at hreply
    · cases hreply
    next halloc =>
    obtain ⟨hconn, hbuf⟩ : io.connected = true ∧ io.buffer = true := by simpa using hopen
    have hmagic : svuGet32 header 0 = svuMagicResp := by
      by_contra hother
      exact hheader (Or.inr hother)
    rcases hpackets header (hio ▸ List.mem_cons_self) with ⟨session, rfl⟩ | hchunk
    · exact ⟨session, packets, hconn, hbuf, by simpa using halloc, hio⟩
    · exact absurd hmagic (hchunk.not_header (length_servedManifest_lt src))
  obtain ⟨session, packets, hconn, hbuf, halloc, hio⟩ := hfirst
  exact (hexchange session packets ⟨hconn, hbuf, halloc⟩ hio).1 reply hreply

theorem Honest.exchange (hsrc : src.length + 1024 < 2 ^ 32) (h : Honest src env)
    {reply : CtrlReply} (hreply : ctrlExchange (env.ctrl round attempt) = some reply) :
    reply = servedReply src :=
  (exchange_served hsrc fun _ hp => h.packets hsrc hp).1 reply hreply

end Replies


/-! ### What a run keeps -/

/-- `I` survives every fragment of the artifact. -/
def Kept (src : Bytes) (I : CiSvu → Prop) : Prop :=
  ∀ {s t : CiSvu} {f : Span}, ReceiverFor src 4096 s → I s → Fits src f →
    ciSvuAccept s f.start (slice src f.start f.stop) = some t → I t

/-- The events of a run against the server of `src` whose receiver satisfies `I`. -/
inductive Explained (cfg : ClientConfig) (src : Bytes) (I : CiSvu → Prop) : ClientEvent → Prop
  | request (round attempt : Nat) {req : SvuReq} (sent : Bool)
      (hmagic : req.magic = svuMagicReq) (hmtu : req.mtu = cfg.mtu)
      (hnof : req.nofIntervals.toNat ≤ svuMaxIntervals) :
      Explained cfg src I (.request round attempt req sent)
  | metaHook {s : CiSvu} (hs : ReceiverFor src 4096 s) (hI : I s) :
      Explained cfg src I (.metaHook src.length 4096 (ciSvuData s))
  | dataHook {s : CiSvu} {f : Span} (hs : ReceiverFor src 4096 s) (hI : I s)
      (hf : Fits src f) :
      Explained cfg src I (.dataHook f.start (slice src f.start f.stop) (ciSvuData s))
  | verdict {s : CiSvu} (hs : ReceiverFor src 4096 s) (hI : I s) :
      Explained cfg src I (.verdict (ciSvuVerify s svuMaxIntervals))
  | openOut (ok : Bool) : Explained cfg src I (.openOut ok)
  | writeOut {s : CiSvu} (hs : ReceiverFor src 4096 s) (hI : I s)
      (hverified : verifyStatus s = .completeVerified) :
      Explained cfg src I (.writeOut s.data)
  | completeHook : Explained cfg src I .completeHook

section Traces

variable {cfg : ClientConfig} {src : Bytes} {env : ClientEnv} {I : CiSvu → Prop} {s : CiSvu}

theorem ReceiverFor.accept {t : CiSvu} {offset : Nat} {buf : Bytes} (hs : ReceiverFor src 4096 s)
    (haccept : ciSvuAccept s offset buf = some t) : ReceiverFor src 4096 t :=
  hs.of_sameShape (ciSvuAccept_valid hs.valid haccept)
    (ciSvuAccept_accepted hs.valid haccept).sameShape

/-- A data packet of the artifact is taken. -/
theorem IsData.taken (hsrc : src.length < 2 ^ 32) {p : Bytes} (hp : IsData src p)
    (hs : ReceiverFor src 4096 s) (rest : List Bytes) :
    ∃ f t, Fits src f ∧ ciSvuAccept s f.start (slice src f.start f.stop) = some t ∧
      drainData s (p :: rest) = ((drainData t rest).1,
        .dataHook f.start (slice src f.start f.stop) (ciSvuData t) :: (drainData t rest).2.1,
        (drainData t rest).2.2 + 1) := by
  obtain ⟨session, f, hf, rfl⟩ := hp
  have hne := hf.nonempty
  have hin := hf.inside
  have hroom : f.start + (slice src f.start f.stop).length ≤ s.total := by
    rw [length_slice, hs.total_eq]
    omega
  obtain ⟨t, haccept⟩ := ciSvuAccept_isSome hroom
  refine ⟨f, t, hf, haccept, ?_⟩
  have hlong : (blastPacket src session f).length > svuDataHdr := by
    rw [length_blastPacket hf]
    omega
  simp only [drainData, if_pos hlong, blastPacket_offset hsrc hf, blastPacket_payload hf, haccept]

theorem drainData_explained (cfg : ClientConfig) (hkept : Kept src I) (hsrc : src.length < 2 ^ 32)
    (packets : List Bytes) : ∀ {s : CiSvu}, ReceiverFor src 4096 s → I s →
    (∀ p ∈ packets, IsData src p) →
    ReceiverFor src 4096 (drainData s packets).1 ∧ I (drainData s packets).1 ∧
      (drainData s packets).2.2 = packets.length ∧
      ∀ e ∈ (drainData s packets).2.1, Explained cfg src I e := by
  induction packets with
  | nil => exact fun hs hI _ => ⟨hs, hI, rfl, by simp [drainData]⟩
  | cons p rest ih =>
      intro s hs hI hall
      obtain ⟨f, t, hf, haccept, hdrain⟩ := (hall p (by simp)).taken hsrc hs rest
      have ht := hs.accept haccept
      have hIt := hkept hs hI hf haccept
      obtain ⟨hs', hI', hcount, hevents⟩ := ih ht hIt fun q hq => hall q (by simp [hq])
      rw [hdrain]
      refine ⟨hs', hI', congrArg (· + 1) hcount, ?_⟩
      intro e he
      rcases List.mem_cons.mp he with rfl | he
      · exact .dataHook ht hIt hf
      · exact hevents e he

theorem drainLoop_explained (cfg : ClientConfig) (hkept : Kept src I) (hsrc : src.length < 2 ^ 32)
    (drains : List (List Bytes)) : ∀ {s : CiSvu}, ReceiverFor src 4096 s → I s →
    (∀ packets ∈ drains, ∀ p ∈ packets, IsData src p) →
    ReceiverFor src 4096 (drainLoop s drains).1 ∧ I (drainLoop s drains).1 ∧
      ∀ e ∈ (drainLoop s drains).2.2, Explained cfg src I e := by
  induction drains with
  | nil =>
      intro s hs hI _
      refine ⟨hs, hI, ?_⟩
      intro e he
      rw [List.mem_singleton.mp he]
      exact .verdict hs hI
  | cons packets rest ih =>
      intro s hs hI hall
      obtain ⟨hs', hI', -, hevents⟩ :=
        drainData_explained cfg hkept hsrc packets hs hI (hall packets (by simp))
      have hverdict : Explained cfg src I (.verdict (ciSvuVerify _ svuMaxIntervals)) :=
        .verdict hs' hI'
      unfold drainLoop
      dsimp only
      split
      · refine ⟨hs', hI', ?_⟩
        intro e he
        rcases List.mem_append.mp he with he | he
        · exact hevents e he
        · rw [List.mem_singleton.mp he]
          exact hverdict
      · obtain ⟨hlast, hIlast, hlater⟩ := ih hs' hI' fun q hq => hall q (by simp [hq])
        refine ⟨hlast, hIlast, ?_⟩
        intro e he
        rcases List.mem_append.mp he with he | he
        · exact hevents e he
        · rcases List.mem_cons.mp he with rfl | he
          · exact hverdict
          · exact hlater e he

theorem finishRun_explained (hs : ReceiverFor src 4096 s) (hI : I s)
    (hverified : verifyStatus s = .completeVerified) :
    ∀ e ∈ (finishRun env s).2, Explained cfg src I e := by
  have hdata : (ciSvuData s).take s.total = s.data :=
    List.take_of_length_le (by rw [ciSvuData, hs.valid.length_data])
  unfold finishRun
  intro e he
  split at he
  · simp only [List.mem_cons, List.not_mem_nil, or_false] at he
    rcases he with rfl | rfl | rfl
    · exact .openOut true
    · rw [hdata]
      exact .writeOut hs hI hverified
    · exact .completeHook
  · rw [List.mem_singleton.mp he]
    exact .openOut false

theorem manifestOnly_nof {req : SvuReq} :
    (manifestOnly req).nofIntervals.toNat ≤ svuMaxIntervals := by
  change (1 : UInt32).toNat ≤ svuMaxIntervals
  decide

theorem ctrlAttempts_explained (ctrl : Nat → CtrlIo) (round left : Nat) :
    ∀ (attempt : Nat) (req : SvuReq), req.magic = svuMagicReq → req.mtu = cfg.mtu →
    req.nofIntervals.toNat ≤ svuMaxIntervals →
    ∀ e ∈ (ctrlAttempts ctrl round left attempt req).2, Explained cfg src I e := by
  induction left with
  | zero =>
      intro attempt req _ _ _ e he
      simp [ctrlAttempts] at he
  | succ left ih =>
      intro attempt req hmagic hmtu hnof e he
      unfold ctrlAttempts at he
      dsimp only at he
      split at he
      · rw [List.mem_singleton.mp he]
        exact .request round attempt _ hmagic hmtu hnof
      · rcases List.mem_cons.mp he with rfl | he
        · exact .request round attempt _ hmagic hmtu hnof
        · exact ih (attempt + 1) (manifestOnly req) hmagic hmtu manifestOnly_nof e he

theorem buildRequest_nof {st : ClientState} (hst : st.nreq ≤ svuMaxIntervals) :
    (buildRequest cfg st).nofIntervals.toNat ≤ svuMaxIntervals := by
  have hlt : st.nreq < 2 ^ 32 := lt_of_le_of_lt hst (by decide)
  rw [buildRequest, UInt32.toNat_ofNat_of_lt' hlt]
  exact hst

theorem nextState_nreq (recv : CiSvu) (v : Verdict) :
    (nextState recv v).nreq ≤ svuMaxIntervals := by
  unfold nextState
  dsimp only
  split <;> omega

theorem initialState_nreq (env : ClientEnv) : (initialState env).nreq ≤ svuMaxIntervals := by
  unfold initialState
  split
  · exact Nat.zero_le _
  · exact (by decide : 1 ≤ svuMaxIntervals)

/-- The receiver of a round, and what its meta hook sees. -/
theorem Honest.attached (hsrc : src.length + 1024 < 2 ^ 32) (hlink : Honest src env)
    {round : Nat} {st : ClientState} {reply : CtrlReply} {recv : CiSvu}
    {events hook : List ClientEvent}
    (hctrl : ctrlAttempts (env.ctrl round) round maxAttempts 0 (buildRequest cfg st) =
      (some reply, events))
    (hattach : attachReceiver env st reply = some (recv, hook))
    (hrecv : ∀ s, st.recv = some s → ReceiverFor src 4096 s ∧ I s)
    (hfresh : st.recv = none → ∀ expected fresh, ciSvuNew env.allocated src.length 4096
      expected (ciSvuNblocks src.length 4096) = some fresh → I (seedReceiver fresh st.seed)) :
    ReceiverFor src 4096 recv ∧ I recv ∧ ∀ e ∈ hook, Explained cfg src I e := by
  rcases attachReceiver_cases hattach with ⟨hold, rfl⟩ | ⟨hnone, fresh, hnew, rfl, rfl⟩
  · obtain ⟨hs, hI⟩ := hrecv recv hold
    exact ⟨hs, hI, by simp⟩
  · obtain ⟨a, -, -, hreply, -⟩ := ctrlAttempts_first maxAttempts hctrl
    obtain rfl := hlink.exchange hsrc hreply
    have hdelivers : Delivers env (servedReply src) src 4096 :=
      delivers_of_written rfl rfl rfl rfl
    have hfor := hdelivers.receiverFor (by omega) hnew
    obtain ⟨hvalid, hshape⟩ := seedReceiver_valid hfor.valid st.seed
    have hs := hfor.of_sameShape hvalid hshape
    have hI := hfresh hnone _ fresh hnew
    refine ⟨hs, hI, ?_⟩
    intro e he
    rw [List.mem_singleton.mp he]
    exact .metaHook hs hI

theorem Honest.isData (hsrc : src.length + 1024 < 2 ^ 32) (hlink : Honest src env)
    (round : Nat) : ∀ packets ∈ env.drains round, ∀ p ∈ packets, IsData src p := by
  intro packets hpackets p hp
  obtain ⟨packet, reply, hserves, hmem⟩ := hlink.data round packets hpackets p hp
  exact hserves.isData hsrc hmem

/-- Every event of a run against the server, over a link that makes nothing up. -/
theorem RoundsFrom.explained (hkept : Kept src I) (hsrc : src.length + 1024 < 2 ^ 32)
    (hlink : Honest src env) {round : Nat} {st : ClientState} {out : Int × List ClientEvent}
    (h : RoundsFrom cfg env round st out) (hst : st.nreq ≤ svuMaxIntervals)
    (hrecv : ∀ s, st.recv = some s → ReceiverFor src 4096 s ∧ I s)
    (hfresh : st.recv = none → ∀ expected fresh, ciSvuNew env.allocated src.length 4096
      expected (ciSvuNblocks src.length 4096) = some fresh → I (seedReceiver fresh st.seed)) :
    ∀ e ∈ out.2, Explained cfg src I e := by
  have hrequests {round : Nat} {st : ClientState} {found : Option CtrlReply}
      {events : List ClientEvent} (hst : st.nreq ≤ svuMaxIntervals)
      (hctrl : ctrlAttempts (env.ctrl round) round maxAttempts 0 (buildRequest cfg st) =
        (found, events)) : ∀ e ∈ events, Explained cfg src I e := by
    have hall : ∀ e ∈ (ctrlAttempts (env.ctrl round) round maxAttempts 0
        (buildRequest cfg st)).2, Explained cfg src I e :=
      ctrlAttempts_explained _ _ _ _ _ rfl rfl (buildRequest_nof hst)
    rw [hctrl] at hall
    exact hall
  have hdrained {round : Nat} {recv recv' : CiSvu} {v : Verdict} {drained : List ClientEvent}
      (hs : ReceiverFor src 4096 recv) (hI : I recv)
      (hdrain : drainLoop recv (env.drains round) = (recv', v, drained)) :
      ReceiverFor src 4096 recv' ∧ I recv' ∧ v = ciSvuVerify recv' svuMaxIntervals ∧
        ∀ e ∈ drained, Explained cfg src I e := by
    obtain ⟨hs', hI', hevents⟩ := drainLoop_explained cfg hkept (by omega) (env.drains round)
      hs hI (hlink.isData hsrc round)
    obtain ⟨-, -, hverdict⟩ := drainLoop_valid (env.drains round) hs.valid
    rw [hdrain] at hs' hI' hevents hverdict
    exact ⟨hs', hI', hverdict, hevents⟩
  induction h with
  | gaveUp => simp
  | ctrlFailed hctrl => exact hrequests hst hctrl
  | newFailed hctrl hattach => exact hrequests hst hctrl
  | verified hctrl hattach hdrain hstatus =>
      obtain ⟨hs, hI, hhook⟩ := hlink.attached hsrc hctrl hattach hrecv hfresh
      obtain ⟨hs', hI', rfl, hevents⟩ := hdrained hs hI hdrain
      rw [ciSvuVerify_eq] at hstatus
      intro e he
      simp only [List.mem_append] at he
      rcases he with ((he | he) | he) | he
      · exact hrequests hst hctrl e he
      · exact hhook e he
      · exact hevents e he
      · exact finishRun_explained hs' hI' hstatus e he
  | again hctrl hattach hdrain hstatus hlater ih =>
      obtain ⟨hs, hI, hhook⟩ := hlink.attached hsrc hctrl hattach hrecv hfresh
      obtain ⟨hs', hI', rfl, hevents⟩ := hdrained hs hI hdrain
      have hnext := ih (nextState_nreq _ _)
        (fun s hs => Option.some.inj hs ▸ ⟨hs', hI'⟩) (fun hnone => by cases hnone)
      intro e he
      simp only [List.mem_append] at he
      rcases he with ((he | he) | he) | he
      · exact hrequests hst hctrl e he
      · exact hhook e he
      · exact hevents e he
      · exact hnext e he

end Traces


section Outcome

variable {cfg : ClientConfig} {src : Bytes} {env : ClientEnv}

/-- Every byte is the artifact's or that of `start`. -/
def Mixed (src start : Bytes) (s : CiSvu) : Prop :=
  ∀ i : Nat, s.data[i]? = src[i]? ∨ s.data[i]? = start[i]?

/-- Every byte that arrived is the artifact's. -/
def Clean (src : Bytes) (s : CiSvu) : Prop :=
  ∀ i : Nat, s.covered[i]? = some true → s.data[i]? = src[i]?

theorem mixed_kept (start : Bytes) : Kept src (Mixed src start) := by
  intro s t f hs hI hf haccept i
  have hget := (ciSvuAccept_accepted hs.valid haccept).data_get i
  have hin := hf.inside
  have hlen : f.start + (slice src f.start f.stop).length = f.stop := by
    have := hf.nonempty
    rw [length_slice]
    omega
  rw [hlen] at hget
  rw [hget]
  split
  next hi =>
    left
    rw [getElem?_slice, if_pos (by omega), Nat.add_sub_cancel' hi.1]
  next => exact hI i

theorem clean_kept : Kept src (Clean src) := by
  intro s t f hs hI hf haccept i hi
  have hstep := ciSvuAccept_accepted hs.valid haccept
  have hget := hstep.data_get i
  have hcov := hstep.covered_get i
  have hin := hf.inside
  have hlen : f.start + (slice src f.start f.stop).length = f.stop := by
    have := hf.nonempty
    rw [length_slice]
    omega
  rw [hlen] at hget hcov
  rw [hget]
  split
  next hrange =>
    rw [getElem?_slice, if_pos (by omega), Nat.add_sub_cancel' hrange.1]
  next hrange =>
    rw [if_neg hrange] at hcov
    exact hI i (hcov.symm.trans hi)

/-- Nothing the artifact's own bytes make up fails. -/
theorem Clean.not_corrupt {s : CiSvu} (hI : Clean src s) (hs : ReceiverFor src 4096 s) :
    verifyStatus s ≠ .corrupt := by
  intro hstatus
  obtain ⟨hfull, i, hi, hfails⟩ := (verifyStatus_corrupt hs.valid).mp hstatus
  have hpass : blockFails s (i / s.block) = false := by
    apply hs.not_blockFails (hs.valid.div_block_lt hi)
    intro j hj _
    apply hI
    have hlt : j < s.covered.length := by rw [hs.valid.length_covered]; exact hj
    rw [List.getElem?_eq_getElem hlt]
    cases hbit : s.covered[j] with
    | true => rfl
    | false => exact absurd ⟨j, by rw [CiSvu.Uncovered, List.getElem?_eq_getElem hlt, hbit]⟩ hfull
  rw [hpass] at hfails
  cases hfails

/-- A verified receiver of the artifact's own bytes holds the artifact. -/
theorem Clean.data_eq {s : CiSvu} (hI : Clean src s) (hs : ReceiverFor src 4096 s)
    (hfull : ¬ ∃ i, s.Uncovered i) : s.data = src := by
  apply List.ext_getElem?
  intro i
  by_cases hi : i < s.total
  · apply hI
    have hlt : i < s.covered.length := by rw [hs.valid.length_covered]; exact hi
    rw [List.getElem?_eq_getElem hlt]
    cases hbit : s.covered[i] with
    | true => rfl
    | false => exact absurd ⟨i, by rw [CiSvu.Uncovered, List.getElem?_eq_getElem hlt, hbit]⟩ hfull
  · have hdata : s.data.length ≤ i := by rw [hs.valid.length_data]; omega
    have hsrc : src.length ≤ i := by rw [← hs.total_eq]; omega
    rw [List.getElem?_eq_none hdata, List.getElem?_eq_none hsrc]

end Outcome


theorem clean_new {src : Bytes} {allocated : Bool} {total block nblocks : Nat}
    {expected : Nat → UInt8} {fresh : CiSvu}
    (hnew : ciSvuNew allocated total block expected nblocks = some fresh) : Clean src fresh := by
  intro i hi
  rw [(ciSvuNew_eq_some hnew).2.2] at hi
  simp only [List.getElem?_replicate] at hi
  split at hi <;> cases hi

theorem initialState_recv (env : ClientEnv) : (initialState env).recv = none := by
  unfold initialState
  split <;> rfl

theorem initialState_seed (env : ClientEnv) : (initialState env).seed = env.seed := by
  unfold initialState
  split <;> simp_all

/-- Every event of a whole run. -/
theorem run_explained (hkept : Kept src I) (hsrc : src.length + 1024 < 2 ^ 32)
    (hlink : Honest src env)
    (hfresh : ∀ expected fresh, ciSvuNew env.allocated src.length 4096 expected
      (ciSvuNblocks src.length 4096) = some fresh → I (seedReceiver fresh env.seed)) :
    ∀ e ∈ (svuClientRunHooked cfg env).2, Explained cfg src I e := by
  refine (svuClientRunHooked_roundsFrom cfg env).explained hkept hsrc hlink
    (initialState_nreq env) ?_ ?_
  · intro s hs
    rw [initialState_recv] at hs
    cases hs
  · intro _ expected fresh hnew
    rw [initialState_seed]
    exact hfresh expected fresh hnew

/-- The meta hook sees the buffer the run starts with. -/
theorem Starting.meta_eq {seed : Option Bytes} {events : List ClientEvent} {total block : Nat}
    {buffer : Bytes} (h : Starting seed events) (hmem : .metaHook total block buffer ∈ events) :
    buffer = startBuffer seed total := by
  have hlater {held : Bytes} {rest : List ClientEvent} (h : Filling held rest) :
      .metaHook total block buffer ∉ rest := by
    induction h with
    | done => simp
    | other hevent _ ih =>
        rintro (_ | ⟨_, hmem⟩)
        · cases hevent
        · exact ih hmem
    | data _ _ ih =>
        rintro (_ | ⟨_, hmem⟩)
        exact ih hmem
  induction h with
  | done => cases hmem
  | other hevent _ ih =>
      rcases List.mem_cons.mp hmem with rfl | hmem
      · cases hevent
      · exact ih hmem
  | begun _ _ hrest =>
      rcases List.mem_cons.mp hmem with heq | hmem
      · cases heq
        rfl
      · exact absurd hmem (hlater hrest)

theorem mem_of_written {events : List ClientEvent} {payload : Bytes}
    (h : written events = [payload]) : .writeOut payload ∈ events := by
  have hmem : payload ∈ written events := by rw [h]; exact List.mem_singleton_self payload
  obtain ⟨e, he, hsome⟩ := List.mem_filterMap.mp hmem
  cases e with
  | writeOut found => cases hsome; exact he
  | _ => cases hsome

theorem Honest.ends {src : Bytes} {env : ClientEnv} (hsrc : src.length + 1024 < 2 ^ 32)
    (hlink : Honest src env) (cfg : ClientConfig) :
    Ends src 4096 (svuClientRunHooked cfg env) := by
  refine (svuClientRunHooked_roundsFrom cfg env).ends (by omega) ?_ ?_
  · intro s hs
    rw [initialState_recv] at hs
    cases hs
  · intro _ reply events hctrl
    obtain ⟨a, -, -, hreply, -⟩ := ctrlAttempts_first maxAttempts hctrl
    obtain rfl := hlink.exchange hsrc hreply
    exact delivers_of_written rfl rfl rfl rfl

/-- A payload of the artifact's length whose blocks have the artifact's digests. -/
structure Matches (src data : Bytes) : Prop where
  length_eq : data.length = src.length
  digest_eq : ∀ b, b * 4096 < src.length →
    sha256 (slice data (b * 4096) (min ((b + 1) * 4096) src.length)) =
      sha256 (slice src (b * 4096) (min ((b + 1) * 4096) src.length))

theorem ReceiverFor.matches {src : Bytes} {s : CiSvu} (hs : ReceiverFor src 4096 s)
    (hsrc : src.length < 2 ^ 32) (hverified : verifyStatus s = .completeVerified) :
    Matches src s.data where
  length_eq := hs.valid.length_data.trans hs.total_eq
  digest_eq := by
    intro b hb
    have hne : ciSvuNblocks src.length 4096 ≠ 0 := by
      rw [← hs.nblocks_eq]
      exact hs.valid.nblocks_ne
    have hlt := div_block_lt hsrc hne hb
    rw [Nat.mul_div_cancel _ (by decide)] at hlt
    rw [← blockEnd_eq_min, hs.digest_of_verified hverified hlt]
    rfl

/-- A run against the server of `src`, over a link that loses, repeats, delays and
reorders packets but makes none up. The server answers everything the client asks.
Every fragment that a data hook sees is the artifact's, and every byte in the buffer is
the artifact's or one the run started with. The run writes a payload whose blocks have
the artifact's digests, or it writes nothing. -/
theorem transfer_sound (cfg : ClientConfig) (env : ClientEnv) (src : Bytes)
    (hsrc : src.length + 1024 < 2 ^ 32) (hmtu : mtuAllowed cfg.mtu.toNat)
    (hlink : Honest src env) :
    (∀ round attempt req sent,
      .request round attempt req sent ∈ (svuClientRunHooked cfg env).2 →
      ∀ buffers, ∃ reply,
        svuServe buffers src src.length 4096 (svuReqEncode req) = some reply ∧
        Serves src (svuReqEncode req) reply) ∧
    (∀ total block buffer, .metaHook total block buffer ∈ (svuClientRunHooked cfg env).2 →
      total = src.length ∧ block = 4096 ∧ buffer = startBuffer env.seed src.length) ∧
    (∀ offset payload buffer,
      .dataHook offset payload buffer ∈ (svuClientRunHooked cfg env).2 →
      offset + payload.length ≤ src.length ∧
      payload = slice src offset (offset + payload.length) ∧
      ∀ i : Nat, buffer[i]? = src[i]? ∨ buffer[i]? = (startBuffer env.seed src.length)[i]?) ∧
    ((svuClientRunHooked cfg env).1 = 0 ∧ (∃ data,
        written (svuClientRunHooked cfg env).2 = [data] ∧ Matches src data ∧
        ∀ i : Nat, data[i]? = src[i]? ∨ data[i]? = (startBuffer env.seed src.length)[i]?) ∨
      (svuClientRunHooked cfg env).1 = -1 ∧
        ∀ e ∈ (svuClientRunHooked cfg env).2, e.touchesOutfile = false) := by
  have hevents : ∀ e ∈ (svuClientRunHooked cfg env).2,
      Explained cfg src (Mixed src (startBuffer env.seed src.length)) e := by
    refine run_explained (mixed_kept _) hsrc hlink ?_
    intro expected fresh hnew i
    have hdata := (seedReceiver_start (by omega) hnew env.seed).2
    rw [ciSvuData] at hdata
    exact Or.inr (by rw [hdata])
  refine ⟨?_, ?_, ?_, ?_⟩
  · intro round attempt req sent hmem buffers
    cases hevents _ hmem with
    | request _ _ _ hmagic hsame hnof =>
        exact encoded_served hsrc hmagic (hsame ▸ hmtu) hnof buffers
  · intro total block buffer hmem
    have hstart := (svuClientRunHooked_starting cfg env).meta_eq hmem
    cases hevents _ hmem with
    | metaHook hs hI => exact ⟨rfl, rfl, hstart⟩
  · intro offset payload buffer hmem
    cases hevents _ hmem with
    | @dataHook s f hs hI hf =>
        have hstop : f.start + (slice src f.start f.stop).length = f.stop := by
          have := hf.nonempty
          have := hf.inside
          rw [length_slice]
          omega
        exact ⟨by rw [hstop]; exact hf.inside, by rw [hstop], hI⟩
  · rcases hlink.ends hsrc cfg with ⟨hzero, s, hs, hverified, hwritten⟩ | hfailed
    · refine Or.inl ⟨hzero, s.data, hwritten, hs.matches (by omega) hverified, ?_⟩
      generalize s.data = data at hwritten
      cases hevents _ (mem_of_written hwritten) with
      | writeOut hs hI hverified => exact hI
    · exact Or.inr hfailed

/-- The data packet of the two-byte artifact. -/
def smallPacket : Bytes := svuPut32 0 ++ svuPut32 1 ++ smallArtifact

/-- The packet is lost in the first round and comes twice in the second. -/
def lateEnv : ClientEnv :=
  { smallEnv with drains := fun round => if round = 1 then [] else [[smallPacket, smallPacket]] }

theorem smallServed : Serves smallArtifact (svuReqEncode firstRequest)
    ⟨smallCtrl.packets, [smallPacket]⟩ := by
  refine ⟨⟨true, fun _ => true, fun _ _ => true⟩, firstRequest.trimmed, ?_, ?_, ?_⟩
  · decide +kernel
  · exact (by decide : 64 ≤ 1024 ∧ 1024 ≤ 1024)
  · decide +kernel

theorem lateEnv_honest : Honest smallArtifact lateEnv where
  ctrl := fun _ _ _ hp => ⟨_, _, smallServed, hp⟩
  data := by
    intro round packets hpackets p hp
    refine ⟨_, _, smallServed, ?_⟩
    simp only [lateEnv] at hpackets
    split at hpackets
    · cases hpackets
    · rw [List.mem_singleton.mp hpackets] at hp
      simpa using hp

theorem transfer_sound_late : ∃ data,
    written (svuClientRunHooked ⟨4096, 1024, 24⟩ lateEnv).2 = [data] ∧
      Matches smallArtifact data := by
  have hzero : (svuClientRunHooked ⟨4096, 1024, 24⟩ lateEnv).1 = 0 := by decide +kernel
  obtain ⟨-, -, -, hends⟩ := transfer_sound ⟨4096, 1024, 24⟩ lateEnv smallArtifact (by decide)
    (by exact (by decide : 64 ≤ 1024 ∧ 1024 ≤ 1024)) lateEnv_honest
  rcases hends with ⟨-, data, hwritten, hmatches, -⟩ | ⟨hfailed, -⟩
  · exact ⟨data, hwritten, hmatches⟩
  · rw [hzero] at hfailed
    cases hfailed

/-- Without a seed of the artifact's length no verdict is CORRUPT, and what a run writes
is the artifact. -/
theorem transfer_exact (cfg : ClientConfig) (env : ClientEnv) (src : Bytes)
    (hsrc : src.length + 1024 < 2 ^ 32) (hlink : Honest src env)
    (hseed : ∀ seed, env.seed = some seed → seed.length ≠ src.length) :
    (∀ v, .verdict v ∈ (svuClientRunHooked cfg env).2 → v.status ≠ .corrupt) ∧
    ((svuClientRunHooked cfg env).1 = 0 → written (svuClientRunHooked cfg env).2 = [src]) := by
  have hevents : ∀ e ∈ (svuClientRunHooked cfg env).2, Explained cfg src (Clean src) e := by
    refine run_explained clean_kept hsrc hlink ?_
    intro expected fresh hnew
    have hunused : seedReceiver fresh env.seed = fresh := by
      have htotal : fresh.total = src.length := by rw [(ciSvuNew_eq_some hnew).2.2]
      cases hheld : env.seed with
      | none => rfl
      | some seed =>
          rw [seedReceiver, htotal, if_neg (hseed seed hheld)]
    rw [hunused]
    exact clean_new hnew
  refine ⟨?_, ?_⟩
  · intro v hmem
    cases hevents _ hmem with
    | verdict hs hI =>
        rw [ciSvuVerify_eq]
        exact hI.not_corrupt hs
  · intro hzero
    rcases hlink.ends hsrc cfg with ⟨-, s, hs, hverified, hwritten⟩ | ⟨hfailed, -⟩
    · rw [hwritten]
      generalize hdata : s.data = data at hwritten
      cases hevents _ (mem_of_written hwritten) with
      | writeOut hs hI hverified =>
          rw [hI.data_eq hs ((verifyStatus_verified hs.valid).mp hverified).1]
    · rw [hzero] at hfailed
      cases hfailed

theorem transfer_exact_late :
    written (svuClientRunHooked ⟨4096, 1024, 24⟩ lateEnv).2 = [smallArtifact] :=
  (transfer_exact ⟨4096, 1024, 24⟩ lateEnv smallArtifact (by decide) lateEnv_honest
    (fun _ hseed => by cases hseed)).2 (by decide +kernel)

end SatDeploy.Svu
