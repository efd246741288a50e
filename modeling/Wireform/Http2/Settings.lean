/-
  Connection settings (`Network.HTTP2.Types`, `Network.HTTP2.Connection.Settings`).

  `applySettingsParams` applies the parameters of a SETTINGS frame in order; a
  value out of range rejects the frame.  `applySettingsParams_valid` says what
  accepted settings are within.
-/
import Mathlib.Tactic.Common

namespace Wireform.Http2

structure Settings where
  settingsHeaderTableSize : UInt32
  settingsEnablePush : Bool
  settingsMaxConcurrentStreams : Option UInt32
  settingsInitialWindowSize : UInt32
  settingsMaxFrameSize : UInt32
  settingsMaxHeaderListSize : Option UInt32
  deriving DecidableEq, Repr

def defaultSettings : Settings where
  settingsHeaderTableSize := 4096
  settingsEnablePush := true
  settingsMaxConcurrentStreams := none
  settingsInitialWindowSize := 65535
  settingsMaxFrameSize := 16384
  settingsMaxHeaderListSize := none

inductive SettingsError where
  | invalidEnablePush (val : UInt32)
  | invalidInitialWindowSize (val : UInt32)
  | invalidMaxFrameSize (val : UInt32)
  deriving DecidableEq, Repr

/-- A parameter of a SETTINGS frame: its identifier and its value. -/
abbrev Param := UInt16 × UInt32

/-- One parameter. -/
def applyParam (s : Settings) : Param → Except SettingsError Settings
  | (0x1, val) => .ok { s with settingsHeaderTableSize := val }
  | (0x2, val) =>
    if val > 1 then .error (.invalidEnablePush val)
    else .ok { s with settingsEnablePush := val ≠ 0 }
  | (0x3, val) => .ok { s with settingsMaxConcurrentStreams := some val }
  | (0x4, val) =>
    if val > 2147483647 then .error (.invalidInitialWindowSize val)
    else .ok { s with settingsInitialWindowSize := val }
  | (0x5, val) =>
    if val < 16384 ∨ val > 16777215 then .error (.invalidMaxFrameSize val)
    else .ok { s with settingsMaxFrameSize := val }
  | (0x6, val) => .ok { s with settingsMaxHeaderListSize := some val }
  | _ => .ok s

attribute [grind =] applyParam

def applySettingsParams (s : Settings) : List Param → Except SettingsError Settings
  | [] => .ok s
  | p :: rest =>
    match applyParam s p with
    | .ok s' => applySettingsParams s' rest
    | .error e => .error e

attribute [grind =] applySettingsParams

/-! ## Accepted settings -/

/-- The ranges of the settings that have one. -/
structure Settings.Valid (s : Settings) : Prop where
  window : s.settingsInitialWindowSize ≤ 2147483647
  frame : 16384 ≤ s.settingsMaxFrameSize ∧ s.settingsMaxFrameSize ≤ 16777215

theorem defaultSettings_valid : defaultSettings.Valid := ⟨by decide, by decide⟩

theorem applyParam_valid {s s' : Settings} {p : Param} (h : applyParam s p = .ok s')
    (hs : s.Valid) : s'.Valid := by
  unfold applyParam at h
  split at h
  · cases h
    exact ⟨hs.window, hs.frame⟩
  · split at h
    · cases h
    · cases h
      exact ⟨hs.window, hs.frame⟩
  · cases h
    exact ⟨hs.window, hs.frame⟩
  · split at h
    · cases h
    · rename_i hle
      cases h
      exact ⟨UInt32.not_lt.1 hle, hs.frame⟩
  · split at h
    · cases h
    · rename_i hle
      cases h
      exact ⟨hs.window, UInt32.not_lt.1 fun h => hle (Or.inl h), UInt32.not_lt.1 fun h => hle (Or.inr h)⟩
  · cases h
    exact ⟨hs.window, hs.frame⟩
  · cases h
    exact hs

/-- **Settings stay within their ranges.** -/
theorem applySettingsParams_valid {params : List Param} : ∀ {s s' : Settings},
    applySettingsParams s params = .ok s' → s.Valid → s'.Valid := by
  induction params with
  | nil =>
    intro s s' h hs
    cases h
    exact hs
  | cons p rest ih =>
    intro s s' h hs
    rw [applySettingsParams] at h
    cases hp : applyParam s p with
    | error e =>
      rw [hp] at h
      cases h
    | ok s₁ =>
      rw [hp] at h
      exact ih h (applyParam_valid hp hs)

end Wireform.Http2
