import Mathlib.Logic.Relation
import SatDeploy.Agent.InstallIntegrity

/-!
What the directory of an app holds over a history of `backup_create` calls.
De-duplication trusts a file name that is created before the file is complete,
so a copy that was cut short is reported as a backup by every later call. In a
history without such a cut, every file in the directory is the backup of its
own content, and what is reported is a copy of the source.
-/

namespace SatDeploy.Agent

open Lib

section Names

theorem hexDigit_ne_dot : ∀ n < 16, hexDigit n ≠ '.'.toUInt8 := by decide

theorem dot_notMem_hex (bytes : Bytes) : '.'.toUInt8 ∉ hex bytes := by
  intro hdot
  obtain ⟨b, -, hdigit⟩ := List.mem_flatMap.mp hdot
  have hhigh : b.toNat / 16 < 16 := by
    have hb := b.toNat_lt
    omega
  rcases List.mem_pair.mp hdigit with heq | heq
  · exact hexDigit_ne_dot _ hhigh heq.symm
  · exact hexDigit_ne_dot _ (Nat.mod_lt _ (by decide)) heq.symm

theorem dot_notMem_digits (width : Nat) : ∀ n, '.'.toUInt8 ∉ digits width n := by
  have hdigit : ∀ d < 10, UInt8.ofNat (48 + d) ≠ '.'.toUInt8 := by decide
  induction width with
  | zero =>
      intro n hdot
      cases hdot
  | succ width ih =>
      intro n hdot
      rw [digits, List.mem_append, List.mem_singleton] at hdot
      rcases hdot with hdot | heq
      · exact ih _ hdot
      · exact hdigit _ (Nat.mod_lt _ (by decide)) heq.symm

theorem dot_notMem_timestamp (tm : Tm) : '.'.toUInt8 ∉ timestamp tm := by
  have hdash : '.'.toUInt8 ∉ ascii "-" := by decide
  simp [timestamp, dot_notMem_digits, hdash]

/-- A text that is cut and still ends in `.bak` was not cut, if `.bak` holds its
only dot. -/
theorem uncut_of_suffix {body front : Bytes} {k : Nat} (hbody : '.'.toUInt8 ∉ body)
    (h : (body ++ ascii ".bak").take k = front ++ ascii ".bak") : front = body := by
  have hlen := congrArg List.length h
  rw [List.length_take, List.length_append, List.length_append] at hlen
  have hfour : (ascii ".bak").length = 4 := rfl
  have hge : body.length ≤ front.length := by
    by_contra hlt
    have hdot : (front ++ ascii ".bak")[front.length]? = some '.'.toUInt8 := by
      rw [List.getElem?_append_right (le_refl _), Nat.sub_self]
      rfl
    rw [← h, List.getElem?_take_of_lt (by omega),
      List.getElem?_append_left (by omega)] at hdot
    exact hbody (List.mem_of_getElem? hdot)
  rw [List.take_of_length_le (by rw [List.length_append]; omega)] at h
  exact (List.append_cancel_right h).symm

/-- The name of a backup carries one hash only, however long its path is. -/
theorem backupPath_hash {app name hash : Bytes} {tm : Tm} {data : Bytes}
    (hname : nameIn (backupDir app) (backupPath app tm (hexDigest data)) = some name)
    (hsuffix : hashSuffix hash <:+ name) (hlen : hash.length = hashHexLen) :
    hash = hexDigest data := by
  have hpath := nameIn_eq_some hname
  have hcut : (timestamp tm ++ ascii "-" ++ hexDigest data ++ ascii ".bak").take
      (511 - (backupDir app ++ ascii "/").length) = name := by
    have hdrop := congrArg (List.drop (backupDir app ++ ascii "/").length) hpath
    rw [List.drop_left, backupPath, clip, maxPathLen, List.drop_take] at hdrop
    simp only [List.append_assoc] at hdrop ⊢
    rw [← List.append_assoc (backupDir app), List.drop_left] at hdrop
    exact hdrop
  obtain ⟨front, hfront⟩ := hsuffix
  have hdots : '.'.toUInt8 ∉ timestamp tm ++ ascii "-" ++ hexDigest data := by
    have hdash : '.'.toUInt8 ∉ ascii "-" := by decide
    have hhex : '.'.toUInt8 ∉ hexDigest data := dot_notMem_hex _
    simp [dot_notMem_timestamp, hdash, hhex]
  have hwhole : front ++ ascii "-" ++ hash = timestamp tm ++ ascii "-" ++ hexDigest data := by
    apply uncut_of_suffix hdots
    rw [hcut, ← hfront, hashSuffix]
    simp only [List.append_assoc]
  exact (List.append_inj' hwhole (by rw [hlen, length_hexDigest])).2

theorem existingPath_of_name {app name : Bytes} {p : Path}
    (hname : nameIn (backupDir app) p = some name) (hlen : p.length ≤ 511) :
    existingPath app name = p := by
  rw [existingPath, ← nameIn_eq_some hname]
  exact clip_of_lt (by unfold maxPathLen; omega)

theorem length_backupPath (app : Bytes) (tm : Tm) (hash : Bytes) :
    (backupPath app tm hash).length ≤ 511 := by
  unfold backupPath clip maxPathLen
  exact List.length_take_le _ _

end Names

/-- Every file in the directory of the app is the backup of its own content, and
its content is one of `S`. -/
def DirectorySound (S : Set Bytes) (app : Bytes) (s : Target) : Prop :=
  ∀ p name data, nameIn (backupDir app) p = some name → s.content p = some data →
    data ∈ S ∧ ∃ tm, p = backupPath app tm (hexDigest data)

/-- What may happen to the directory of an app without a copy being cut, where
`S` has all contents that are backed up. -/
inductive BackupStep (S : Set Bytes) (app : Bytes) : Target → Target → Prop where
  /-- A call that finishes whatever copy it begins. -/
  | call {env : Env} (henv : env.Finishes) (src : Path) (n : Nat) (s : Target)
      (hsrc : ∀ data, s.content src = some data → data ∈ S) :
      BackupStep S app s (backupCreate env app src n s).state
  /-- A call that fails or is killed before or after the copy: no file is left
  with a part of the source in it. -/
  | cut {env : Env} (src : Path) (n : Nat) (s t : Target)
      (hsrc : ∀ data, s.content src = some data → data ∈ S)
      (hcut : t ∈ (backupCreate env app src n s).passed ∨
        t = (backupCreate env app src n s).state)
      (hclean : ∀ p, t.content p = s.content p ∨ t.content p = none ∨
        t.content p = s.content src) : BackupStep S app s t
  /-- Anything else on the target, outside the directory. -/
  | other (s t : Target)
      (hother : ∀ p name, nameIn (backupDir app) p = some name →
        t.content p = s.content p) : BackupStep S app s t

section Invariant

variable {S : Set Bytes} {app : Bytes}

theorem directorySound_start {s : Target} (h : s.namesIn (backupDir app) = []) :
    DirectorySound S app s := by
  intro p name data hname hdata
  have hmem := Target.mem_namesIn.mpr ⟨p, data, hname, hdata⟩
  rw [h] at hmem
  cases hmem

/-- Files that are as before, gone, or a backup of the source. -/
theorem DirectorySound.of_changes {s t : Target} (hs : DirectorySound S app s) {src : Path}
    (hsrc : ∀ data, s.content src = some data → data ∈ S)
    (hchanges : ∀ p, t.content p = s.content p ∨ t.content p = none ∨
      ∃ tm data, s.content src = some data ∧ t.content p = some data ∧
        p = backupPath app tm (hexDigest data)) : DirectorySound S app t := by
  intro p name data hname hdata
  rcases hchanges p with hsame | hgone | ⟨tm, found, hfound, hcopy, hpath⟩
  · exact hs p name data hname (hsame.symm.trans hdata)
  · rw [hgone] at hdata
    cases hdata
  · have heq : found = data := Option.some.inj (hcopy.symm.trans hdata)
    rw [← heq]
    exact ⟨hsrc found hfound, tm, hpath⟩

theorem BackupStep.sound {s t : Target} (hstep : BackupStep S app s t)
    (hs : DirectorySound S app s) : DirectorySound S app t := by
  cases hstep with
  | @call env henv src n s hsrc =>
      have hwp : Prog.wp (backupCreate env app src) (fun _ => True)
          (fun _ _ t => DirectorySound S app t) n s := by
        apply backupCreate_whole henv
        · exact fun _ => hs
        · exact fun _ _ _ _ _ _ => hs
        · intro m t tm data hdata hothers hcopy
          refine hs.of_changes hsrc fun p => ?_
          by_cases hp : p = backupPath app tm (hexDigest data)
          · exact Or.inr (Or.inr ⟨tm, data, hdata, hp ▸ hcopy, hp⟩)
          · exact Or.inl (hothers p hp)
        · intro m t tm data hdata hothers hlost
          refine hs.of_changes hsrc fun p => ?_
          by_cases hp : p = backupPath app tm (hexDigest data)
          · rw [hp]
            exact hlost.elim (fun h => Or.inr (Or.inl h)) Or.inl
          · exact Or.inl (hothers p hp)
      exact (backupCreate_total app src).ended hwp
  | @cut env src n s t hsrc hcut hclean =>
      have hframe : ∀ p, (∀ tm data, s.content src = some data →
          p ≠ backupPath app tm (hexDigest data)) → t.content p = s.content p := by
        rcases hcut with hpassed | rfl
        · exact (backupCreate_frame app src n s).1 t hpassed
        · exact (backupCreate_total app src).ended (backupCreate_frame app src n s)
      refine hs.of_changes hsrc fun p => ?_
      by_cases hpath : ∃ tm data, s.content src = some data ∧
          p = backupPath app tm (hexDigest data)
      · obtain ⟨tm, data, hdata, rfl⟩ := hpath
        rcases hclean (backupPath app tm (hexDigest data)) with hsame | hgone | hcopy
        · exact Or.inl hsame
        · exact Or.inr (Or.inl hgone)
        · exact Or.inr (Or.inr ⟨tm, data, hdata, hcopy.trans hdata, rfl⟩)
      · exact Or.inl (hframe p fun tm data hdata heq => hpath ⟨tm, data, hdata, heq⟩)
  | other s t hother =>
      intro p name data hname hdata
      exact hs p name data hname ((hother p name hname).symm.trans hdata)

theorem directorySound_of_run {s₀ s : Target} (hstart : s₀.namesIn (backupDir app) = [])
    (hrun : Relation.ReflTransGen (BackupStep S app) s₀ s) : DirectorySound S app s := by
  induction hrun with
  | refl => exact directorySound_start hstart
  | tail _ hstep ih => exact hstep.sound ih

/-- In a sound directory the reported path has the content of the source. -/
theorem backupCreate_reports (hinj : Set.InjOn hexDigest S) {env : Env} (henv : env.Finishes)
    {src : Path} {n : Nat} {s : Target} (hs : DirectorySound S app s)
    (hsrc : ∀ data, s.content src = some data → data ∈ S) :
    Prog.wp (backupCreate env app src) (fun _ => True)
      (fun r _ t => ∀ p, r = some p →
        ∃ data, t.content src = some data ∧ t.content p = some data) n s := by
  apply backupCreate_whole henv
  · intro m p hp
    cases hp
  · intro m data name hdata hname hsuffix p hp
    obtain ⟨q, found, hq, hfound⟩ := Target.mem_namesIn.mp hname
    obtain ⟨hmem, tm, rfl⟩ := hs q name found hq hfound
    have hdigest := backupPath_hash hq hsuffix (length_hexDigest data)
    have hpath := existingPath_of_name hq (length_backupPath _ _ _)
    rw [← Option.some.inj hp, hpath]
    refine ⟨data, hdata, ?_⟩
    rw [hfound, hinj (hsrc data hdata) hmem hdigest]
  · intro m t tm data hdata hothers hcopy p hp
    rw [← Option.some.inj hp]
    refine ⟨data, ?_, hcopy⟩
    by_cases hself : src = backupPath app tm (hexDigest data)
    · rw [hself]
      exact hcopy
    · rw [hothers src hself]
      exact hdata
  · intro m t tm data hdata hothers hlost p hp
    cases hp

end Invariant

/-- In every history without a cut copy, from a directory without backups, a
reported backup has the content of the source. -/
theorem reported_backup_is_real {S : Set Bytes} (hinj : Set.InjOn hexDigest S) {app : Bytes}
    {s₀ s : Target} (hstart : s₀.namesIn (backupDir app) = [])
    (hrun : Relation.ReflTransGen (BackupStep S app) s₀ s) {env : Env} (henv : env.Finishes)
    {src : Path} (hsrc : ∀ data, s.content src = some data → data ∈ S) (n : Nat) {p : Path}
    (hreport : (backupCreate env app src n s).result = some (some p)) :
    ∃ data, (backupCreate env app src n s).state.content src = some data ∧
      (backupCreate env app src n s).state.content p = some data := by
  have hend := (backupCreate_reports hinj henv (directorySound_of_run hstart hrun) hsrc
    (n := n)).2
  rw [hreport] at hend
  exact hend p rfl

/-- A target with `hi` installed as `demo` and no backups. -/
def demoTarget : Target :=
  Target.put ⟨∅, some [], .zero⟩ (ascii "/opt/demo") ⟨ascii "hi", 0o755, 0⟩

/-- A call of `backup_create` for `demo` on which nothing fails. -/
def demoBackup (s : Target) : Outcome Target (Option Path) :=
  backupCreate (calmEnv demoTime) (ascii "demo") (ascii "/opt/demo") 0 s

def demoBackupPath : Path := backupPath (ascii "demo") demoTime (hexDigest (ascii "hi"))

theorem reported_backup_demo :
    (demoBackup (demoBackup demoTarget).state).result = some (some demoBackupPath) ∧
    ∃ data, (demoBackup (demoBackup demoTarget).state).state.content (ascii "/opt/demo") =
        some data ∧
      (demoBackup (demoBackup demoTarget).state).state.content demoBackupPath = some data := by
  have hsrc : ∀ s : Target, s.content (ascii "/opt/demo") = some (ascii "hi") →
      ∀ data, s.content (ascii "/opt/demo") = some data →
      data ∈ ({ascii "hi"} : Set Bytes) := by
    intro s hs data hdata
    rw [Set.mem_singleton_iff]
    exact Option.some.inj (hdata.symm.trans hs)
  have hstep : BackupStep {ascii "hi"} (ascii "demo") demoTarget (demoBackup demoTarget).state :=
    .call (calmEnv_finishes demoTime) _ _ _ (hsrc _ Target.content_put)
  have hreport : (demoBackup (demoBackup demoTarget).state).result =
      some (some demoBackupPath) := by
    decide +kernel
  have hstart : demoTarget.namesIn (backupDir (ascii "demo")) = [] := by decide +kernel
  refine ⟨hreport, reported_backup_is_real (S := {ascii "hi"}) (Set.injOn_singleton _ _)
    hstart (.single hstep) (calmEnv_finishes demoTime) (hsrc _ (by decide +kernel)) 0 hreport⟩

/-- A call that is killed after the first byte of its copy leaves a file that
the next call reports as the backup. -/
theorem cut_backup_is_reported :
    demoTarget.content (ascii "/opt/demo") = some (ascii "hi") ∧
    ∃ t ∈ (demoBackup demoTarget).passed,
      (demoBackup t).result = some (some demoBackupPath) ∧
      (demoBackup t).state.content demoBackupPath = some (ascii "h") ∧
      (demoBackup t).state.content (ascii "/opt/demo") = some (ascii "hi") := by
  decide +kernel

end SatDeploy.Agent
