/-
# Pinned host names

While a block of `pin_dns` or `pin_dns_global` is open, its host name is to resolve to the
address that was checked before, so that a second resolution cannot lead somewhere else. The
pins are kept in one dictionary a thread and in one for the process, by host name alone, and
leaving a block takes the name out of its dictionary. A second block of the same dictionary
for the same name is thus left without its pin.
-/

import RagFlow.Math.Slots
import Mathlib.Data.List.Basic

namespace RagFlow.Net

open RagFlow.Math

/-- An address of either family. -/
inductive Ip
  | v4 (address : BitVec 32)
  | v6 (address : BitVec 128)
  deriving DecidableEq

/-- `AF_INET` and `AF_INET6`. -/
inductive Family
  | inet
  | inet6
  deriving DecidableEq

/-- Only the text of an address of the second family has a colon in it. -/
def Ip.family : Ip → Family
  | .v4 _ => .inet
  | .v6 _ => .inet6

/-- What `getaddrinfo` says of one address; the type and the protocol are always those of a
stream. -/
structure AddrInfo where
  family : Family
  ip : Ip
  port : ℕ
  deriving DecidableEq

/-- `socket.getaddrinfo`: `none` if it raises. -/
abbrev Getaddrinfo := String → Option ℕ → Option (List AddrInfo)

/-- `_effective_ip` -/
def effectiveIp : Ip → Ip
  | .v4 address => .v4 address
  | .v6 address =>
      -- `ipv4_mapped`: the addresses of ::ffff:0:0/96
      if address >>> 32 = 0xffff then .v4 (address.setWidth 32) else .v6 address

/-! ### What the guard returns -/

/-- Why a URL is not safe to fetch. -/
inductive UrlError
  | disallowedScheme (scheme : String)
  | missingHost
  | notResolved (host : String)
  | nonPublic (ip : Ip)
  | noAddresses (host : String)
  deriving DecidableEq

/-- The loop of `assert_url_is_safe` over the addresses. -/
def firstPublic (isGlobal : Ip → Bool) (resolvedIp : Option Ip) :
    List AddrInfo → Except UrlError (Option Ip)
  | [] => .ok resolvedIp
  | info :: infos =>
      if isGlobal (effectiveIp info.ip) then
        firstPublic isGlobal (resolvedIp.or (some info.ip)) infos
      else
        .error (.nonPublic info.ip)

/-- `assert_url_is_safe` of a URL with this scheme and this host name, if it has one. -/
def assertUrlIsSafe (isGlobal : Ip → Bool) (allowedSchemes : List String)
    (getaddrinfo : Getaddrinfo) (scheme : String) (hostname : Option String) :
    Except UrlError (String × Ip) :=
  if scheme ∉ allowedSchemes then
    .error (.disallowedScheme scheme)
  else
    match hostname with
    | none => .error .missingHost
    | some host =>
        if host = "" then
          .error .missingHost
        else
          match getaddrinfo host none with
          | none => .error (.notResolved host)
          | some infos =>
              match firstPublic isGlobal none infos with
              | .error e => .error e
              | .ok none => .error (.noAddresses host)
              | .ok (some ip) => .ok (host, ip)

variable {isGlobal : Ip → Bool}

theorem isGlobal_of_firstPublic {resolvedIp : Option Ip} {infos : List AddrInfo} {ip : Ip}
    (hresolved : ∀ a, resolvedIp = some a → isGlobal (effectiveIp a))
    (h : firstPublic isGlobal resolvedIp infos = .ok (some ip)) : isGlobal (effectiveIp ip) := by
  induction infos generalizing resolvedIp with
  | nil => exact hresolved ip (by simpa [firstPublic] using h)
  | cons info infos ih =>
      by_cases hglobal : isGlobal (effectiveIp info.ip)
      · simp only [firstPublic, hglobal, ↓reduceIte] at h
        refine ih ?_ h
        intro a ha
        cases resolvedIp with
        | none =>
            obtain rfl : info.ip = a := by simpa using ha
            exact hglobal
        | some b => exact hresolved a (by simpa using ha)
      · simp [firstPublic, hglobal] at h

/-- What the guard returns is public. -/
theorem isGlobal_of_assertUrlIsSafe {allowedSchemes : List String} {getaddrinfo : Getaddrinfo}
    {scheme : String} {hostname : Option String} {host : String} {ip : Ip}
    (h : assertUrlIsSafe isGlobal allowedSchemes getaddrinfo scheme hostname = .ok (host, ip)) :
    isGlobal (effectiveIp ip) := by
  unfold assertUrlIsSafe at h
  split at h
  · cases h
  · split at h
    · cases h
    · split at h
      · cases h
      · split at h
        · cases h
        · split at h
          · cases h
          · cases h
          · rename_i hfirst
            cases h
            exact isGlobal_of_firstPublic (by simp) hfirst

/-! ### Blocks and lookups -/

variable {ι θ : Type} [DecidableEq ι] [DecidableEq θ]

/-- Where a pin is kept: `_tl.dns_pins` of one thread, or `_global_dns_pins`. -/
inductive Scope (θ : Type)
  | thread (t : θ)
  | process
  deriving DecidableEq

/-- A block of `pin_dns` or `pin_dns_global` that a task has entered, with what
`assert_url_is_safe` has returned. -/
structure Block (isGlobal : Ip → Bool) (ι θ : Type) where
  task : ι
  scope : Scope θ
  hostname : String
  ip : Ip
  checked : ∃ allowedSchemes getaddrinfo scheme host,
    assertUrlIsSafe isGlobal allowedSchemes getaddrinfo scheme host = .ok (hostname, ip)
  deriving DecidableEq

namespace Block

/-- The dictionary and the name that the block pins. -/
def key (b : Block isGlobal ι θ) : Scope θ × String := (b.scope, b.hostname)

/-- A lookup in thread `t` looks at the dictionary of the block. -/
def Covers (b : Block isGlobal ι θ) (t : θ) : Prop :=
  b.scope = .thread t ∨ b.scope = .process

omit [DecidableEq ι] [DecidableEq θ] in
theorem isGlobal_ip (b : Block isGlobal ι θ) : isGlobal (effectiveIp b.ip) := by
  obtain ⟨_, _, _, _, h⟩ := b.checked
  exact isGlobal_of_assertUrlIsSafe h

end Block

/-- The open blocks and the dictionaries of pins. -/
abbrev Pins (isGlobal : Ip → Bool) (ι θ : Type) := Slots (Block isGlobal ι θ) (Scope θ × String) Ip

namespace Pins

/-- No block has been entered. -/
def start : Pins isGlobal ι θ := Slots.empty

/-- Entering `pin_dns` or `pin_dns_global`. -/
def enterBlock (s : Pins isGlobal ι θ) (b : Block isGlobal ι θ) : Pins isGlobal ι θ :=
  s.enter b b.key b.ip

/-- The `finally` of `pin_dns` or `pin_dns_global`. -/
def leaveBlock (s : Pins isGlobal ι θ) (b : Block isGlobal ι θ) : Pins isGlobal ι θ :=
  s.leave b b.key

/-- `dns_pins` of a thread. -/
def localPins (s : Pins isGlobal ι θ) (t : θ) (host : String) : Option Ip :=
  s.slot (.thread t, host)

/-- `_global_dns_pins` -/
def globalPins (s : Pins isGlobal ι θ) (host : String) : Option Ip :=
  s.slot (.process, host)

/-- A task enters a block, or leaves one if it may. -/
inductive Step (may : Pins isGlobal ι θ → Block isGlobal ι θ → Prop) :
    Pins isGlobal ι θ → Pins isGlobal ι θ → Prop
  | enter {s : Pins isGlobal ι θ} (b : Block isGlobal ι θ) : Step may s (s.enterBlock b)
  | leave {s : Pins isGlobal ι θ} (b : Block isGlobal ι θ) (h : b ∈ s.holders) (hmay : may s b) :
      Step may s (s.leaveBlock b)

/-- No other open block has the dictionary and the name of `b`. -/
def Alone (s : Pins isGlobal ι θ) (b : Block isGlobal ι θ) : Prop :=
  ∀ other ∈ s.holders.erase b, ¬ (other.scope = b.scope ∧ other.hostname = b.hostname)

end Pins

/-- What a pin answers. -/
def pinned (ip : Ip) (port : Option ℕ) : List AddrInfo :=
  [{ family := ip.family, ip, port := port.getD 0 }]

/-- `_getaddrinfo_with_pins`, over the one that was there before. -/
def getaddrinfoWithPins (orig : Getaddrinfo) (localPins globalPins : String → Option Ip)
    (host : String) (port : Option ℕ) : Option (List AddrInfo) :=
  match localPins host with
  | some ip => some (pinned ip port)
  | none =>
      match globalPins host with
      | some ip => some (pinned ip port)
      | none => orig host port

namespace Pins

variable {s t : Pins isGlobal ι θ} {b : Block isGlobal ι θ} {n m : ℕ}

theorem Step.slots (h : Step Alone s t) : Slots.AloneStep Block.key Block.ip s t := by
  cases h with
  | enter b => exact .enter b
  | leave b h alone =>
      refine .leave b h fun other hother hkey => alone other hother ?_
      exact Prod.mk.inj hkey

/-- Whatever a dictionary holds is the pin of an open block, and every open block has one. -/
theorem kept_of_run (hrun : Run (Step Alone) s n t) (h : Slots.Kept Block.key Block.ip s) :
    Slots.Kept Block.key Block.ip t :=
  hrun.invariant h fun _ _ _ _ hkept hstep => hstep.slots.kept hkept

omit [DecidableEq ι] [DecidableEq θ] in
/-- A lookup reads the dictionary of its thread in `s` and that of the process in `t`. In its
own block it finds a pin of an open block. -/
theorem exists_lookup (hs : Slots.Kept Block.key Block.ip s) (ht : Slots.Kept Block.key Block.ip t)
    (hbs : b ∈ s.holders) (hbt : b ∈ t.holders) {thread : θ} (hb : b.Covers thread)
    (orig : Getaddrinfo) (port : Option ℕ) :
    ∃ p, (p ∈ s.holders ∨ p ∈ t.holders) ∧ p.hostname = b.hostname ∧
      getaddrinfoWithPins orig (s.localPins thread) t.globalPins b.hostname port =
        some (pinned p.ip port) := by
  cases hlocal : s.localPins thread b.hostname with
  | some ip =>
      obtain ⟨p, hp, hkey, rfl⟩ := hs.held _ ip hlocal
      exact ⟨p, .inl hp, (Prod.mk.inj hkey).2, by simp [getaddrinfoWithPins, hlocal]⟩
  | none =>
      have hscope : b.scope = .process := by
        rcases hb with hthread | hprocess
        · refine absurd hlocal ?_
          have hfull := hs.full b hbs
          rwa [Block.key, hthread] at hfull
        · exact hprocess
      obtain ⟨p, hp, hkey, hslot⟩ := ht.exists_of_mem hbt
      have hglobal : t.globalPins b.hostname = some p.ip := by
        rwa [Block.key, hscope] at hslot
      exact ⟨p, .inr hp, (Prod.mk.inj hkey).2, by simp [getaddrinfoWithPins, hlocal, hglobal]⟩

/-- If no block is left while another one of its dictionary and name is open, a lookup that a
task makes in its own block is answered by a pin of an open block. Between the two readings of
the lookup, others may go on. -/
theorem exists_lookup_of_run (hs : Run (Step Alone) start n s)
    (ht : Run (Step Alone) s m t) (hbs : b ∈ s.holders) (hbt : b ∈ t.holders) {thread : θ}
    (hb : b.Covers thread) (orig : Getaddrinfo) (port : Option ℕ) :
    ∃ p, (p ∈ s.holders ∨ p ∈ t.holders) ∧ p.hostname = b.hostname ∧
      isGlobal (effectiveIp p.ip) ∧
      getaddrinfoWithPins orig (s.localPins thread) t.globalPins b.hostname port =
        some (pinned p.ip port) := by
  have hkept := kept_of_run hs Slots.kept_empty
  obtain ⟨p, hp, hhost, hlookup⟩ :=
    exists_lookup hkept (kept_of_run ht hkept) hbs hbt hb orig port
  exact ⟨p, hp, hhost, p.isGlobal_ip, hlookup⟩

/-- Once a block of the process is left, its name is resolved afresh, whoever else has pinned
it for the process. -/
theorem getaddrinfoWithPins_leaveBlock (hscope : b.scope = .process) {thread : θ}
    (hlocal : s.localPins thread b.hostname = none) (orig : Getaddrinfo) (port : Option ℕ) :
    getaddrinfoWithPins orig ((s.leaveBlock b).localPins thread) (s.leaveBlock b).globalPins
      b.hostname port = orig b.hostname port := by
  have hlocal' : (s.leaveBlock b).localPins thread b.hostname = none := by
    simpa [localPins, leaveBlock, Slots.leave, Block.key, hscope] using hlocal
  have hglobal : (s.leaveBlock b).globalPins b.hostname = none := by
    simp [globalPins, leaveBlock, Slots.leave, Block.key, hscope]
  simp [getaddrinfoWithPins, hlocal', hglobal]

/-! ### Two tasks that fetch from one host -/

/-- One address is public. -/
def exampleGlobal (ip : Ip) : Bool := ip = .v4 0x5db8d822

/-- A block of `pin_dns_global` for `example.com` at 93.184.216.34. -/
def exampleBlock (task : ℕ) : Block exampleGlobal ℕ ℕ where
  task
  scope := .process
  hostname := "example.com"
  ip := .v4 0x5db8d822
  checked := ⟨["http", "https"],
    fun _ port => some [{ family := .inet, ip := .v4 0x5db8d822, port := port.getD 0 }],
    "https", some "example.com", by decide⟩

theorem lookup_of_exampleBlock :
    ∃ p, (p ∈ (start.enterBlock (exampleBlock 0)).holders ∨
        p ∈ (start.enterBlock (exampleBlock 0)).holders) ∧
      p.hostname = "example.com" ∧ exampleGlobal (effectiveIp p.ip) ∧
      getaddrinfoWithPins (fun _ _ => none) ((start.enterBlock (exampleBlock 0)).localPins 7)
        (start.enterBlock (exampleBlock 0)).globalPins "example.com" none =
          some (pinned p.ip none) :=
  exists_lookup_of_run (.single (.enter (exampleBlock 0))) .refl List.mem_cons_self
    List.mem_cons_self (.inr rfl) (fun _ _ => none) none

/-- The second of two tasks is still in its block when the first has left its own: its lookup
is answered by a fresh resolution. -/
theorem fresh_lookup_in_block :
    ∃ s : Pins exampleGlobal ℕ ℕ,
      Run (Step fun _ _ => True) start 3 s ∧ exampleBlock 1 ∈ s.holders ∧
      (∀ thread, (exampleBlock 1).Covers thread) ∧
      ∀ orig thread port, getaddrinfoWithPins orig (s.localPins thread) s.globalPins
        "example.com" port = orig "example.com" port := by
  let both : Pins exampleGlobal ℕ ℕ :=
    (start.enterBlock (exampleBlock 0)).enterBlock (exampleBlock 1)
  have hrun : Run (Step fun _ _ => True) start 2 both :=
    .tail (.single (.enter (exampleBlock 0))) (.enter (exampleBlock 1))
  refine ⟨both.leaveBlock (exampleBlock 0), .tail hrun (.leave _ (by decide) trivial), by decide,
    fun _ => .inr rfl, ?_⟩
  intro orig thread port
  have hlocal : both.localPins thread "example.com" = none := by
    simp [both, localPins, enterBlock, Slots.enter, start, Slots.empty, Block.key, exampleBlock]
  exact getaddrinfoWithPins_leaveBlock rfl hlocal orig port

end Pins

end RagFlow.Net
