import Mathlib.Data.List.TakeWhile
import SatDeploy.Agent.DeployHandler

/-!
The ground side, `satdeploy-apm/src/satdeploy_apm.c`: how an operator's remote
path becomes an app name, and what a push does with the answers of the agent.
-/

namespace SatDeploy.Ground

open Lib Agent

section AppName

def slash : UInt8 := '/'.toUInt8
def dot : UInt8 := '.'.toUInt8

/-- What follows the last slash. -/
def baseName (path : Path) : Bytes := (path.reverse.takeWhile (· ≠ slash)).reverse

/-- The text before its last dot, unless that is its first character. -/
def cutExtension (name : Bytes) : Bytes :=
  let extension := (name.reverse.takeWhile (· ≠ dot)).length
  if extension + 1 < name.length then name.take (name.length - (extension + 1)) else name

/-- `satdeploy_derive_app_name` with the buffer of 128 bytes that the commands
hand to it. -/
def deriveAppName (remote : Path) : Bytes :=
  (cutExtension (clip 128 (baseName remote))).map fun c => if c = dot then '-'.toUInt8 else c

theorem slash_notMem_baseName (path : Path) : slash ∉ baseName path := by
  intro hmem
  have hmem := List.mem_reverse.mp hmem
  simpa using List.mem_takeWhile_imp hmem

theorem cutExtension_subset (name : Bytes) : cutExtension name ⊆ name := by
  unfold cutExtension
  dsimp only
  split
  · exact List.take_subset _ _
  · exact List.Subset.refl _

theorem length_cutExtension (name : Bytes) : (cutExtension name).length ≤ name.length := by
  unfold cutExtension
  dsimp only
  split
  · exact List.length_take_le' _ _
  · exact le_refl _

/-- A derived name is one path component. -/
theorem slash_notMem_deriveAppName (remote : Path) : slash ∉ deriveAppName remote := by
  intro hmem
  obtain ⟨c, hc, heq⟩ := List.mem_map.mp hmem
  have hbase : c ∈ baseName remote :=
    List.take_subset _ _ (cutExtension_subset _ hc)
  split at heq
  · exact absurd heq (by decide)
  · rw [heq] at hbase
    exact slash_notMem_baseName remote hbase

theorem length_deriveAppName (remote : Path) : (deriveAppName remote).length ≤ 127 := by
  unfold deriveAppName
  rw [List.length_map]
  exact le_trans (length_cutExtension _) (List.length_take_le _ _)

example : deriveAppName (ascii "/opt/tools/radio.v2.bin") = ascii "radio-v2" := by decide

end AppName

section Push

/-- The return codes of a command. -/
inductive SlashResult where
  | success
  | eusage
  | eio
  deriving DecidableEq, Repr

/-- What becomes of one request: it may not arrive, or its reply may not. -/
inductive Delivery where
  | requestLost
  | replyLost
  | answered
  deriving DecidableEq, Repr

/-- One round trip with the agent, and the operating system it meets there. -/
structure Exchange where
  env : Env
  delivery : Delivery

/-- `send_deploy_request`: the reply, if one comes back. -/
def sendDeployRequest (delivery : Delivery) (handler : Prog Target DeployResponse) :
    Prog Target (Option DeployResponse) :=
  match delivery with
  | .requestLost => pure none
  | .replyLost => do
      let _ ← handler
      return none
  | .answered => do
      let resp ← handler
      return some resp

/-- The first status entry with the name decides. -/
def alreadyDeployed (apps : List AppStatusEntry) (app checksum : Bytes) : Bool :=
  match apps.find? (fun e => e.appName = app) with
  | some e => e.fileHash = checksum
  | none => false

/-- What the ground station brings to a push: whether the SVU server started,
the address of its default interface, the mode of the local file, and the MTU. -/
structure Station where
  serving : Bool
  groundNode : UInt16
  fileMode : UInt32
  mtu : UInt32

def deployRequest (station : Station) (app : Bytes) (remote : Path) (artifact : Bytes) :
    DeployRequest where
  appName := app
  remotePath := remote
  dtpServerNode := station.groundNode.toUInt32
  expectedSize := UInt32.ofNat artifact.length
  expectedChecksum := hexDigest artifact
  rollbackHash := []
  chunkSeq := 0
  totalChunks := 0
  chunkData := []
  fileMode := station.fileMode &&& 0o777
  dtpMtu := station.mtu

variable (station : Station) (probe push : Exchange) (download : Path → Prog Target Bool)

/-- The part of `deploy_single_app` that sends CMD_DEPLOY. -/
def pushArtifact (app : Bytes) (remote : Path) (artifact : Bytes) : Prog Target SlashResult := do
  if station.serving then
    match ← sendDeployRequest push.delivery (handleDeployWith push.env download
        (deployRequest station app remote artifact)) with
    | none => return .eio
    | some resp => return if resp.success then .success else .eio
  else return .eio

/-- `deploy_single_app`; the local file is `none` when it cannot be read. -/
def deploySingleApp (app : Bytes) (localFile : Option Bytes) (remote : Path) (force : Bool) :
    Prog Target SlashResult := do
  match localFile with
  | none => return .eio
  | some artifact =>
      if force then pushArtifact station push download app remote artifact
      else
        match ← sendDeployRequest probe.delivery (handleStatus probe.env) with
        | none => return .eio
        | some status =>
            if status.success ∧ alreadyDeployed status.apps app (hexDigest artifact) then
              return .success
            else pushArtifact station push download app remote artifact

/-- `satdeploy_deploy_cmd` once its arguments are parsed. -/
def satdeployDeployCmd (localFile : Option Bytes) (remote : Path) (force : Bool) :
    Prog Target SlashResult :=
  deploySingleApp station probe push download (deriveAppName remote) localFile remote force

end Push

end SatDeploy.Ground
