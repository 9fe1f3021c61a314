import SatDeploy.Agent.Serving

/-!
The agent over its life: any requests in any order, any calls that fail, a kill at any
point and a restart on what is on the disk then. The only files that ever change are
those that the requests name, and between two restarts the agent never stops answering.
-/

namespace SatDeploy.Agent

open Lib

/-- The requests that an agent was sent, newest first and each with the state in which it
came in, and the state they have led to. -/
inductive Life (s₀ : Target) : List (Request × Target) → Target → Prop where
  | start : Life s₀ [] s₀
  | answer {xs : List (Request × Target)} {s : Target} (hlife : Life s₀ xs s) (env : Env)
      (link : Link) (shell : Shell) (req : Request) (n : Nat) (reply : Response)
      (hreply : (handleConnection env link shell req n s).result = some reply) :
      Life s₀ ((req, s) :: xs) (handleConnection env link shell req n s).state
  /-- The agent is killed at work on a request, or dies of it, and starts again. -/
  | cut {xs : List (Request × Target)} {s : Target} (hlife : Life s₀ xs s) (env : Env)
      (link : Link) (shell : Shell) (req : Request) (n : Nat) (t : Target)
      (ht : t = s ∨ t ∈ (handleConnection env link shell req n s).passed ∨
        t = (handleConnection env link shell req n s).state) :
      Life s₀ ((req, s) :: xs) t.restarted

/-- The files that a request names: those it writes at once, and for a direct upload those
of the whole upload. -/
def Request.Names (req : Request) (s : Target) (p : Path) : Prop :=
  match req.command with
  | .cmdDeploy => DeployWrites req.appName req.remotePath p
  | .cmdRollback => ∃ remote, rollbackTarget req.toDeployRequest s = some remote ∧
      RestoreWrites req.appName remote p
  | .cmdUploadStart => req.toDeployRequest.session.Writes p
  | _ => False

section Sessions

variable {xs : List (Request × Target)} {before after later : UploadSession} {s : Target}

theorem UploadSession.Continues.trans (h : before.Continues after) (h' : after.Continues later) :
    before.Continues later where
  active := h.active
  app := h'.app.trans h.app
  remote := h'.remote.trans h.remote
  temp := h'.temp.trans h.temp
  opened := h'.opened.trans h.opened

theorem UploadSession.Continues.writes (h : before.Continues after) {p : Path} :
    after.Writes p ↔ before.Writes p := by
  unfold UploadSession.Writes
  rw [h.app, h.remote, h.temp]

/-- An active session goes on with an upload that one of the requests started. -/
def Started (xs : List (Request × Target)) (ss : UploadSession) : Prop :=
  ss.active = true → ∃ x ∈ xs, x.1.command = .cmdUploadStart ∧
    x.1.toDeployRequest.session.Continues ss

theorem Started.step {req : Request} (h : Started xs before) (hstep : SessionStep req before after)
    (s : Target) : Started ((req, s) :: xs) after := by
  intro hactive
  rcases hstep hactive with ⟨hcommand, rfl⟩ | hcontinues
  · exact ⟨_, List.mem_cons_self, hcommand, rfl, rfl, rfl, rfl, rfl⟩
  · obtain ⟨x, hx, hcommand, hbefore⟩ := h hcontinues.active
    exact ⟨x, List.mem_cons_of_mem _ hx, hcommand, hbefore.trans hcontinues⟩

theorem Started.opened (h : Started xs s.session) (hactive : s.session.active = true) :
    s.session.tempOpen = true := by
  obtain ⟨x, -, -, hcontinues⟩ := h hactive
  exact hcontinues.opened

/-- What a request writes is named by it, or by the start of the upload that it goes on
with. -/
theorem Started.names {req : Request} (h : Started xs s.session) {p : Path}
    (hp : req.Writes s p) : ∃ x ∈ (req, s) :: xs, x.1.Names x.2 p := by
  have hsession : s.session.active = true → s.session.Writes p →
      ∃ x ∈ (req, s) :: xs, x.1.Names x.2 p := by
    intro hactive hwrites
    obtain ⟨x, hx, hcommand, hcontinues⟩ := h hactive
    refine ⟨x, List.mem_cons_of_mem _ hx, ?_⟩
    unfold Request.Names
    rw [hcommand]
    exact hcontinues.writes.mp hwrites
  have hown : ∀ {P : Prop}, P → (P → req.Names s p) → ∃ x ∈ (req, s) :: xs, x.1.Names x.2 p :=
    fun h hnames => ⟨_, List.mem_cons_self, hnames h⟩
  unfold Request.Writes at hp
  unfold Request.Names at hown
  cases hcommand : req.command with
  | cmdDeploy | cmdRollback =>
      rw [hcommand] at hp hown
      exact hown hp id
  | cmdUploadStart =>
      rw [hcommand] at hp hown
      rcases hp with ⟨hactive, htemp⟩ | htemp
      · exact hsession hactive (Or.inl htemp)
      · exact hown htemp Or.inl
  | cmdUploadChunk | cmdUploadEnd =>
      rw [hcommand] at hp
      exact hsession hp.1 hp.2
  | cmdStatus | cmdListVersions | cmdLogs | cmdUnknown =>
      rw [hcommand] at hp
      exact hp.elim

end Sessions

section Confinement

variable {s₀ s : Target} {xs : List (Request × Target)}

theorem Life.started (hfresh : s₀.session.active = false) (hlife : Life s₀ xs s) :
    Started xs s.session := by
  induction hlife with
  | start =>
      intro hactive
      rw [hfresh] at hactive
      cases hactive
  | @answer xs s _ env link shell req n reply hreply ih =>
      have hstep := (@handleConnection_session env n s link shell req).2
      rw [hreply] at hstep
      exact ih.step hstep s
  | cut => exact fun hactive => by cases hactive

/-- The start of an upload of `demo`. -/
def startDemo : Request := { demoRequest (ascii "/opt/demo") with
  command := .cmdUploadStart, totalChunks := 1, logLines := 0 }

/-- An agent that just came up on a target with a file of someone else. -/
def sharedTarget : Target where
  fs := (∅ : Fs).insert (ascii "/etc/fstab") ⟨ascii "rw", 0o644, 0⟩
  cache := none
  session := .zero

end Confinement

section Uptime

variable {s₀ s : Target} {xs : List (Request × Target)} {app : Bytes} {p : Path}

theorem backup_ne_metadataFile : ¬ IsBackupPath app metadataFile := by
  rintro ⟨tm, data, heq⟩
  exact absurd (heq ▸ backupPath_under app tm _) (by decide)

/-- An upload that is not meant for `apps.json` does not write it. -/
theorem upload_spares_metadata {req : DeployRequest} (hpath : req.remotePath ≠ metadataFile) :
    ¬ req.session.Writes metadataFile := by
  rintro (htemp | hremote | hbackup)
  · exact uploadTempPath_ne_metadataFile req.appName htemp.symm
  · exact clip_ne_metadataFile hpath hremote.symm
  · exact backup_ne_metadataFile hbackup

/-- Nor does any other request that is not meant for it. -/
theorem Started.spares_metadata (h : Started xs s.session) (hsane : s.Sane) {req : Request}
    (hpath : req.remotePath ≠ metadataFile) (hpaths : ∀ x ∈ xs, x.1.remotePath ≠ metadataFile) :
    ¬ req.Writes s metadataFile := by
  have hsession : s.session.active = true → ¬ s.session.Writes metadataFile := by
    intro hactive hwrites
    obtain ⟨x, hx, -, hcontinues⟩ := h hactive
    exact upload_spares_metadata (hpaths x hx) (hcontinues.writes.mp hwrites)
  unfold Request.Writes
  cases req.command with
  | cmdDeploy =>
      rintro (hremote | htemp | hsidecar | hbackup)
      · exact hpath hremote.symm
      · exact tempPath_ne_metadataFile _ htemp.symm
      · exact sidecar_ne_metadata hsidecar rfl
      · exact backup_ne_metadataFile hbackup
  | cmdRollback =>
      rintro ⟨remote, htarget, hremote | hbackup⟩
      · subst hremote
        obtain ⟨entries, hmeta, hentries⟩ := hsane
        unfold rollbackTarget at htarget
        split at htarget
        · exact hpath (Option.some.inj htarget)
        · rw [hmeta, Option.bind_some] at htarget
          cases hfound : findApp entries req.appName with
          | none => simp [hfound] at htarget
          | some e =>
              simp only [hfound] at htarget
              split at htarget
              · exact hentries e (List.mem_of_find?_eq_some hfound) (Option.some.inj htarget)
              · cases htarget
      · exact backup_ne_metadataFile hbackup
  | cmdUploadStart =>
      rintro (⟨hactive, htemp⟩ | htemp)
      · exact hsession hactive (Or.inl htemp)
      · exact uploadTempPath_ne_metadataFile _ htemp.symm
  | cmdUploadChunk | cmdUploadEnd => exact fun hwrites => hsession hwrites.1 hwrites.2
  | cmdStatus | cmdListVersions | cmdLogs | cmdUnknown => exact id

/-- A life without a restart: every request so far was answered. -/
inductive Uptime (s₀ : Target) : List (Request × Target) → Target → Prop where
  | start : Uptime s₀ [] s₀
  | answer {xs : List (Request × Target)} {s : Target} (hup : Uptime s₀ xs s) (env : Env)
      (link : Link) (shell : Shell) (req : Request) (n : Nat) (reply : Response)
      (hreply : (handleConnection env link shell req n s).result = some reply) :
      Uptime s₀ ((req, s) :: xs) (handleConnection env link shell req n s).state

theorem Uptime.life (h : Uptime s₀ xs s) : Life s₀ xs s := by
  induction h with
  | start => exact .start
  | answer _ env link shell req n reply hreply ih =>
      exact ih.answer env link shell req n reply hreply

/-- One request more. -/
theorem Uptime.answers (hfresh : s₀.session.active = false) (hup : Uptime s₀ xs s)
    (hsane : s.Sane) (hpaths : ∀ x ∈ xs, x.1.remotePath ≠ metadataFile) (env : Env) (link : Link)
    (shell : Shell) {req : Request} (n : Nat) (hpath : req.remotePath ≠ metadataFile) :
    Prog.Ends (handleConnection env link shell req) (fun _ _ t => t.Sane) n s := by
  have hstarted := hup.life.started hfresh
  exact (handleConnection_at link shell req hstarted.opened).lives
    (hstarted.spares_metadata hsane hpath hpaths) hsane

theorem Uptime.sane (hfresh : s₀.session.active = false) (hsane : s₀.Sane)
    (hup : Uptime s₀ xs s) (hpaths : ∀ x ∈ xs, x.1.remotePath ≠ metadataFile) : s.Sane := by
  induction hup with
  | start => exact hsane
  | answer hup env link shell req n reply hreply ih =>
      have hbefore := fun x hx => hpaths x (List.mem_cons_of_mem _ hx)
      obtain ⟨_, _, hlater⟩ := hup.answers hfresh (ih hbefore) hbefore env link shell n
        (hpaths _ List.mem_cons_self)
      exact hlater

/-- A path that is not given, or that is spelled as files are named, has room for `.tmp`
and is not that of `apps.json`. -/
structure Elsewhere (p : Path) : Prop where
  spelled : p = [] ∨ Ordinary p ∧ p.length + 4 < maxPathLen
  ne : p ≠ metadataFile

/-- The request cannot mean `apps.json` by another of its names: its app is one component
of a path, and its path is elsewhere. -/
structure Request.Elsewhere (req : Request) : Prop where
  app : '/'.toUInt8 ∉ req.appName
  remote : Agent.Elsewhere req.remotePath

/-- The metadata can be read, and the paths in it are elsewhere. -/
def Target.Registers (s : Target) : Prop :=
  ∃ entries, s.metadata = some entries ∧ ∀ e ∈ entries, Elsewhere e.remotePath

theorem Target.Registers.sane (h : s.Registers) : s.Sane := by
  obtain ⟨entries, hmeta, hentries⟩ := h
  exact ⟨entries, hmeta, fun e he => (hentries e he).ne⟩

end Uptime

end SatDeploy.Agent
