import Mathlib.Data.Int.Notation
import Onprest.Lib.Machine
import Onprest.Lib.Table

/-! The credentials an agent connects with: challenges the gateway hands out, the signed request that consumes
one, and what cleanup and eviction may drop. Instants are nanoseconds since the zero `time.Time`. -/

namespace Onprest.Gateway
open Lib

/-! ### Handlers -/

def minute : ℤ := 60 * 1000000000

def maxAgentChallenges : ℕ := 1024

def agentChallengeTTL : ℤ := minute

/-- `Time.Sub`: a difference beyond the range of a duration is the nearest duration. -/
def timeSub (t u : ℤ) : ℤ := max (-2 ^ 63) (min (t - u) (2 ^ 63 - 1))

/-- What `authMu` guards of the state of a server for agents: when each stored challenge was issued, and the signed
timestamp of each remembered nonce. -/
structure AuthState where
  agentChallenges : Table String ℤ
  nonces : Table String ℤ

/-- `cleanupAgentAuthStateLocked`. -/
def cleanupAgentAuthState (now : ℤ) (s : AuthState) : AuthState where
  agentChallenges := s.agentChallenges.filter fun issued => !decide (issued < now - agentChallengeTTL)
  nonces := s.nonces.filter fun seen => !decide (seen < now - 5 * minute)

/-- One turn of the loop of `evictOldestChallengeLocked`; the zero instant stands for "none yet". -/
def older (challenges : Table String ℤ) (oldest : String × ℤ) (challenge : String) : String × ℤ :=
  match challenges.lookup challenge with
  | none => oldest
  | some issued => if oldest.2 = 0 ∨ issued < oldest.2 then (challenge, issued) else oldest

/-- `evictOldestChallengeLocked`; `order` is the order in which the map yields its keys. -/
def evictOldestChallenge (order : List String) (challenges : Table String ℤ) : Table String ℤ :=
  challenges.erase (order.foldl (older challenges) ("", 0)).1

/-- The critical section of `handleAgentChallenge`; `now` was read before the lock was taken. -/
def handleAgentChallenge (challenge : String) (now : ℤ) (order : List String) (s : AuthState) : AuthState :=
  let s := cleanupAgentAuthState now s
  let kept := if maxAgentChallenges ≤ s.agentChallenges.size then evictOldestChallenge order s.agentChallenges
    else s.agentChallenges
  { s with agentChallenges := kept.insert challenge now }

/-- What a request authenticates with. -/
structure Credentials where
  challenge : String
  nonce : String
  ts : ℤ
deriving DecidableEq

/-- `takeAgentCredentials`; `now` is read under the lock. -/
def takeAgentCredentials (c : Credentials) (now : ℤ) (s : AuthState) : Bool × AuthState :=
  let s := cleanupAgentAuthState now s
  match s.agentChallenges.lookup c.challenge with
  | none => (false, s)
  | some issued =>
    if timeSub now issued > agentChallengeTTL then (false, s)
    else if (s.nonces.lookup c.nonce).isSome then (false, s)
    else (true, ⟨s.agentChallenges.erase c.challenge, s.nonces.insert c.nonce c.ts⟩)

/-- The path and the header fields the two checks read; a missing field is the empty text. -/
structure AgentRequest where
  path : String
  timestamp : String
  nonce : String
  signature : String
  challenge : String
  handshakeKey : String

/-- The configured key and what the checks use of the library: `base64.RawURLEncoding.DecodeString`, `time.Parse`
with `time.RFC3339`, and `ed25519.Verify`. -/
structure AgentAuthEnv where
  agentPublicKey : String
  decodeString : String → Option (List UInt8)
  parseTime : String → Option ℤ
  verify : List UInt8 → String → List UInt8 → Bool

def publicKeySize : ℕ := 32

def signatureSize : ℕ := 64

def agentAuthMessage (path timestamp nonce challenge handshakeKey : String) : String :=
  "onprest-agent-v2" ++ "\n" ++ path ++ "\n" ++ timestamp ++ "\n" ++ nonce ++ "\n" ++ challenge ++
    "\n" ++ handshakeKey

def agentVerifyAuthMessage (path timestamp nonce challenge : String) : String :=
  "onprest-agent-verify-v1" ++ "\n" ++ path ++ "\n" ++ timestamp ++ "\n" ++ nonce ++ "\n" ++ challenge

/-- The part that `authenticateAgent` and `authenticateAgentVerify` share: the key, the fields, the window around the
signed timestamp and the signature. `since` is the clock at `time.Since`. -/
def signedCredentials (env : AgentAuthEnv) (r : AgentRequest) (handshake : Bool) (path : Bool) (message : String)
    (since : ℤ) : Option Credentials := do
  let publicKey ← env.decodeString env.agentPublicKey
  if publicKey.length ≠ publicKeySize then none
  if r.timestamp = "" ∨ r.nonce = "" ∨ r.challenge = "" ∨ r.signature = "" ∨ handshake = false then none
  let ts ← env.parseTime r.timestamp
  let d := timeSub since ts
  if d < -minute ∨ d > 5 * minute then none
  let signature ← env.decodeString r.signature
  if signature.length ≠ signatureSize then none
  if path = false ∨ env.verify publicKey message signature = false then none
  pure ⟨r.challenge, r.nonce, ts⟩

/-- The credentials of a connection request. -/
def connectCredentials (env : AgentAuthEnv) (r : AgentRequest) (since : ℤ) : Option Credentials :=
  signedCredentials env r (r.handshakeKey ≠ "") true
    (agentAuthMessage r.path r.timestamp r.nonce r.challenge r.handshakeKey) since

/-- The credentials of a verification request, which is not a handshake and has a path of its own. -/
def verifyCredentials (env : AgentAuthEnv) (r : AgentRequest) (since : ℤ) : Option Credentials :=
  signedCredentials env r (r.handshakeKey = "") (r.path = "/ws/agent/verify")
    (agentVerifyAuthMessage r.path r.timestamp r.nonce r.challenge) since

/-- `authenticateAgent` and `authenticateAgentVerify` after their checks. -/
def authenticateWith (c : Option Credentials) (now : ℤ) (s : AuthState) : Bool × AuthState :=
  match c with
  | none => (false, s)
  | some c => takeAgentCredentials c now s

def authenticateAgent (env : AgentAuthEnv) (r : AgentRequest) (since now : ℤ) (s : AuthState) : Bool × AuthState :=
  authenticateWith (connectCredentials env r since) now s

def authenticateAgentVerify (env : AgentAuthEnv) (r : AgentRequest) (since now : ℤ) (s : AuthState) :
    Bool × AuthState :=
  authenticateWith (verifyCredentials env r since) now s

/-! ### Runs -/

/-- What a run leaves in its history. -/
inductive AuthRecord where
  | issued (challenge : String) (now : ℤ)
  | accepted (c : Credentials) (now : ℤ)
deriving DecidableEq

/-- The guarded state with the history of the run, its newest record first. -/
structure AuthRun where
  state : AuthState
  history : List AuthRecord

/-- One request. `clock` is the clock in the critical section; a challenge is stored under the earlier reading `now`.
-/
inductive AuthAction where
  | challenge (value : String) (now clock : ℤ) (order : List String)
  | connect (r : AgentRequest) (since clock : ℤ)
  | verify (r : AgentRequest) (since clock : ℤ)

def AuthAction.clock : AuthAction → ℤ
  | .challenge _ _ clock _ => clock
  | .connect _ _ clock => clock
  | .verify _ _ clock => clock

/-- The outcome of a request with credentials `c`, with the record it leaves. -/
def recordWith (c : Option Credentials) (now : ℤ) (outcome : Bool × AuthState)
    (history : List AuthRecord) : AuthRun :=
  match outcome.1, c with
  | true, some c => ⟨outcome.2, .accepted c now :: history⟩
  | _, _ => ⟨outcome.2, history⟩

/-- The gateway's requests of agents in any order; an iteration order has to list the stored challenges. -/
def agentAuth (env : AgentAuthEnv) : Machine AuthRun AuthAction where
  step s
    | .challenge value now _ order =>
      if order.Perm (cleanupAgentAuthState now s.state).agentChallenges.keys then
        some ⟨handleAgentChallenge value now order s.state, .issued value now :: s.history⟩
      else none
    | .connect r since clock =>
      some (recordWith (connectCredentials env r since) clock
        (authenticateAgent env r since clock s.state) s.history)
    | .verify r since clock =>
      some (recordWith (verifyCredentials env r since) clock
        (authenticateAgentVerify env r since clock s.state) s.history)

def AuthRun.start : AuthRun := ⟨⟨∅, ∅⟩, []⟩

/-- The challenges issued so far. -/
def issuedValues (history : List AuthRecord) : List String :=
  history.filterMap fun
    | .issued challenge _ => some challenge
    | .accepted _ _ => none

/-- The challenges consumed so far. -/
def consumedValues (history : List AuthRecord) : List String :=
  history.filterMap fun
    | .issued _ _ => none
    | .accepted c _ => some c.challenge

/-- The clock never goes backward: critical sections follow it, and a reading made before the lock was taken is no
later than the one made under it. -/
def ForwardClock (as : List AuthAction) : Prop :=
  (as.map AuthAction.clock).Pairwise (· ≤ ·) ∧
    ∀ a ∈ as, match a with
      | .challenge _ now clock _ => now ≤ clock
      | .connect _ _ _ => True
      | .verify _ _ _ => True

@[simp] theorem issuedValues_issued (challenge : String) (now : ℤ) (history : List AuthRecord) :
    issuedValues (.issued challenge now :: history) = challenge :: issuedValues history := rfl

@[simp] theorem consumedValues_accepted (c : Credentials) (now : ℤ) (history : List AuthRecord) :
    consumedValues (.accepted c now :: history) = c.challenge :: consumedValues history := rfl

variable {challenge value : String} {now issued clock : ℤ} {history : List AuthRecord} {s t : AuthRun}
  {order : List String} {env : AgentAuthEnv} {a : AuthAction} {as : List AuthAction}

theorem mem_issuedValues (h : .issued challenge now ∈ history) : challenge ∈ issuedValues history :=
  List.mem_filterMap.mpr ⟨_, h, rfl⟩

theorem mem_consumedValues :
    challenge ∈ consumedValues history ↔ ∃ c now, c.challenge = challenge ∧ .accepted c now ∈ history := by
  rw [consumedValues, List.mem_filterMap]
  constructor
  · rintro ⟨_ | ⟨c, now⟩, hmem, hc⟩
    · simp at hc
    · exact ⟨c, now, by simpa using hc, hmem⟩
  · rintro ⟨c, now, hc, hmem⟩
    exact ⟨_, hmem, by simp [hc]⟩

/-! ### What one request does -/

theorem lookup_recent {t : Table String ℤ} {k : String} {x ttl : ℤ} :
    (t.filter fun x => !decide (x < now - ttl)).lookup k = some x ↔ t.lookup k = some x ∧ now - x ≤ ttl := by
  rw [Table.lookup_filter, Option.filter_eq_some_iff, Bool.not_eq_true', decide_eq_false_iff_not]
  exact and_congr_right fun _ => by omega

theorem lookup_cleanup_challenges {s : AuthState} :
    (cleanupAgentAuthState now s).agentChallenges.lookup challenge = some issued ↔
      s.agentChallenges.lookup challenge = some issued ∧ now - issued ≤ agentChallengeTTL :=
  lookup_recent

theorem lookup_cleanup_nonces {s : AuthState} {seen : ℤ} {nonce : String} :
    (cleanupAgentAuthState now s).nonces.lookup nonce = some seen ↔
      s.nonces.lookup nonce = some seen ∧ now - seen ≤ 5 * minute :=
  lookup_recent

/-- The loop ends at a stored challenge unless there is none. -/
theorem foldl_older_mem {t : Table String ℤ} {oldest : String × ℤ} (horder : ∀ k ∈ order, k ∈ t)
    (h : oldest.2 = 0 ∧ order ≠ [] ∨ oldest.1 ∈ t) : (order.foldl (older t) oldest).1 ∈ t := by
  induction order generalizing oldest with
  | nil =>
    rcases h with ⟨-, h⟩ | h
    · exact absurd rfl h
    · exact h
  | cons k order ih =>
    apply ih (fun k hk => horder k (List.mem_cons_of_mem _ hk))
    obtain ⟨issued, hk⟩ := Option.isSome_iff_exists.mp (AList.lookup_isSome.mpr (horder k List.mem_cons_self))
    right
    simp only [older, hk]
    split
    · exact horder k List.mem_cons_self
    · rename_i hcond
      rcases h with ⟨h, -⟩ | h
      · exact absurd (Or.inl h) hcond
      · exact h

theorem size_evictOldestChallenge {t : Table String ℤ} (horder : order.Perm t.keys) (hsize : 0 < t.size) :
    (evictOldestChallenge order t).size + 1 = t.size := by
  have hne : order ≠ [] := by
    intro h
    have hlen := horder.length_eq
    rw [h, AList.keys, List.keys, List.length_map, List.length_nil] at hlen
    rw [Table.size] at hsize
    omega
  have hmem : (order.foldl (older t) ("", 0)).1 ∈ t :=
    foldl_older_mem (fun k hk => AList.mem_keys.mpr (horder.mem_iff.mp hk)) (.inl ⟨rfl, hne⟩)
  obtain ⟨issued, hlookup⟩ := Option.isSome_iff_exists.mp (AList.lookup_isSome.mpr hmem)
  exact Table.size_erase hlookup

theorem size_handleAgentChallenge {s : AuthState}
    (horder : order.Perm (cleanupAgentAuthState now s).agentChallenges.keys)
    (h : s.agentChallenges.size ≤ maxAgentChallenges) :
    (handleAgentChallenge value now order s).agentChallenges.size ≤ maxAgentChallenges := by
  have hclean : (cleanupAgentAuthState now s).agentChallenges.size ≤ maxAgentChallenges :=
    le_trans (Table.size_filter_le _ _) h
  apply le_trans (Table.size_insert_le _ _ _)
  split
  · rename_i hfull
    have hevict := size_evictOldestChallenge horder (lt_of_lt_of_le (by decide) hfull)
    omega
  · omega

/-- A stored challenge is the one just issued or was stored before. -/
theorem lookup_handleAgentChallenge {s : AuthState}
    (h : (handleAgentChallenge value now order s).agentChallenges.lookup challenge = some issued) :
    challenge = value ∧ issued = now ∨ challenge ≠ value ∧ s.agentChallenges.lookup challenge = some issued := by
  rw [handleAgentChallenge, Table.lookup_insert_eq] at h
  split at h
  · rename_i heq
    exact .inl ⟨heq, (Option.some.inj h).symm⟩
  · rename_i hne
    refine .inr ⟨hne, ?_⟩
    split at h
    · rw [evictOldestChallenge, Table.lookup_erase_eq] at h
      split at h
      · cases h
      · exact (lookup_cleanup_challenges.mp h).1
    · exact (lookup_cleanup_challenges.mp h).1

/-- What is known of a request that was accepted. -/
structure Taken (c : Credentials) (now : ℤ) (s t : AuthState) : Prop where
  stored : ∃ issued, s.agentChallenges.lookup c.challenge = some issued ∧ now - issued ≤ agentChallengeTTL
  unused : (cleanupAgentAuthState now s).nonces.lookup c.nonce = none
  challenges : t.agentChallenges = (cleanupAgentAuthState now s).agentChallenges.erase c.challenge
  nonces : t.nonces = (cleanupAgentAuthState now s).nonces.insert c.nonce c.ts

theorem takeAgentCredentials_cases (c : Credentials) (now : ℤ) (s : AuthState) :
    takeAgentCredentials c now s = (false, cleanupAgentAuthState now s) ∨
      ∃ t, takeAgentCredentials c now s = (true, t) ∧ Taken c now s t := by
  rw [takeAgentCredentials]
  cases hlookup : (cleanupAgentAuthState now s).agentChallenges.lookup c.challenge with
  | none => exact .inl rfl
  | some issued =>
    dsimp only
    by_cases hexpired : timeSub now issued > agentChallengeTTL
    · exact .inl (if_pos hexpired)
    · rw [if_neg hexpired]
      by_cases hseen : ((cleanupAgentAuthState now s).nonces.lookup c.nonce).isSome = true
      · exact .inl (if_pos hseen)
      · rw [if_neg hseen]
        exact .inr ⟨_, rfl, ⟨issued, lookup_cleanup_challenges.mp hlookup⟩, by simpa using hseen, rfl, rfl⟩

/-- What a request changes: it stores a challenge, is refused before or after the cleanup, or is accepted. -/
inductive Outcome (s : AuthRun) : AuthAction → AuthRun → Prop
  | challenge {value : String} {now clock : ℤ} {order : List String}
      (horder : order.Perm (cleanupAgentAuthState now s.state).agentChallenges.keys) :
      Outcome s (.challenge value now clock order)
        ⟨handleAgentChallenge value now order s.state, .issued value now :: s.history⟩
  | unsigned {a : AuthAction} : Outcome s a s
  | refused {a : AuthAction} : Outcome s a ⟨cleanupAgentAuthState a.clock s.state, s.history⟩
  | accepted {a : AuthAction} {c : Credentials} {t : AuthState} (htaken : Taken c a.clock s.state t) :
      Outcome s a ⟨t, .accepted c a.clock :: s.history⟩

theorem outcome_recordWith (c : Option Credentials) (s : AuthRun) (a : AuthAction) :
    Outcome s a (recordWith c a.clock (authenticateWith c a.clock s.state) s.history) := by
  cases c with
  | none => exact .unsigned
  | some c =>
    rcases takeAgentCredentials_cases c a.clock s.state with h | ⟨t, h, htaken⟩
    · simp only [recordWith, authenticateWith, h]
      exact .refused
    · simp only [recordWith, authenticateWith, h]
      exact .accepted htaken

theorem outcome_of_step (h : (agentAuth env).step s a = some t) : Outcome s a t := by
  cases a with
  | challenge value now clock order =>
    simp only [agentAuth, Option.ite_none_right_eq_some, Option.some.injEq] at h
    obtain ⟨horder, rfl⟩ := h
    exact .challenge horder
  | connect r since clock =>
    cases h
    exact outcome_recordWith _ s (.connect r since clock)
  | verify r since clock =>
    cases h
    exact outcome_recordWith _ s (.verify r since clock)

/-! ### What every run keeps -/

/-- A consumed challenge was issued before, had not expired and had not been consumed. -/
def SingleUse : AuthRecord → List AuthRecord → Prop
  | .issued _ _, _ => True
  | .accepted c now, earlier =>
    (∃ issued, .issued c.challenge issued ∈ earlier ∧ now - issued ≤ agentChallengeTTL) ∧
      c.challenge ∉ consumedValues earlier

/-- What holds in every run that issues no challenge twice. -/
structure Spent (s : AuthRun) : Prop where
  stored : ∀ challenge issued, s.state.agentChallenges.lookup challenge = some issued →
    .issued challenge issued ∈ s.history ∧ challenge ∉ consumedValues s.history
  history : Causal SingleUse s.history

theorem Spent.issued_of_consumed (h : Spent s) (hconsumed : challenge ∈ consumedValues s.history) :
    challenge ∈ issuedValues s.history := by
  obtain ⟨c, now, rfl, hmem⟩ := mem_consumedValues.mp hconsumed
  obtain ⟨later, earlier, hsplit⟩ := List.append_of_mem hmem
  have hcausal := h.history
  rw [hsplit] at hcausal ⊢
  obtain ⟨⟨issued, hissued, -⟩, -⟩ := hcausal.at
  exact mem_issuedValues (List.mem_append_right _ (List.mem_cons_of_mem _ hissued))

theorem spent_outcome (hs : Spent s) (h : Outcome s a t) (hfresh : (issuedValues t.history).Nodup) : Spent t := by
  cases h with
  | unsigned => exact hs
  | refused =>
    refine ⟨?_, hs.history⟩
    intro challenge issued hlookup
    exact hs.stored challenge issued (lookup_cleanup_challenges.mp hlookup).1
  | @challenge value now clock order horder =>
    rw [issuedValues_issued, List.nodup_cons] at hfresh
    refine ⟨?_, trivial, hs.history⟩
    intro challenge issued hlookup
    rcases lookup_handleAgentChallenge hlookup with ⟨rfl, rfl⟩ | ⟨-, hlookup⟩
    · exact ⟨List.mem_cons_self, fun hmem => hfresh.1 (hs.issued_of_consumed hmem)⟩
    · obtain ⟨hissued, hunused⟩ := hs.stored challenge issued hlookup
      exact ⟨List.mem_cons_of_mem _ hissued, hunused⟩
  | @accepted _ c t htaken =>
    obtain ⟨issued, hlookup, hage⟩ := htaken.stored
    obtain ⟨hissued, hunused⟩ := hs.stored c.challenge issued hlookup
    refine ⟨?_, ⟨⟨issued, hissued, hage⟩, hunused⟩, hs.history⟩
    intro challenge issued' hlookup'
    dsimp only at hlookup'
    rw [htaken.challenges, Table.lookup_erase_eq] at hlookup'
    split at hlookup'
    · cases hlookup'
    · rename_i hne
      obtain ⟨hissued', hunused'⟩ := hs.stored challenge issued' (lookup_cleanup_challenges.mp hlookup').1
      refine ⟨List.mem_cons_of_mem _ hissued', ?_⟩
      rw [consumedValues_accepted, List.mem_cons, not_or]
      exact ⟨hne, hunused'⟩

/-- The challenges issued by a step are added to those of the run before it. -/
theorem nodup_issued_of_outcome (h : Outcome s a t) (hfresh : (issuedValues t.history).Nodup) :
    (issuedValues s.history).Nodup := by
  cases h with
  | unsigned => exact hfresh
  | refused => exact hfresh
  | challenge horder => exact (List.nodup_cons.mp hfresh).2
  | accepted htaken => exact hfresh

theorem spent_run (hrun : (agentAuth env).run .start as = some s) (hfresh : (issuedValues s.history).Nodup) :
    Spent s := by
  have hkeep : (issuedValues s.history).Nodup → Spent s := by
    apply (agentAuth env).run_invariant ?_ ?_ hrun
    · intro s a t hs hstep hnodup
      have houtcome := outcome_of_step hstep
      exact spent_outcome (hs (nodup_issued_of_outcome houtcome hnodup)) houtcome hnodup
    · intro _
      exact ⟨fun challenge issued h => by simp [AuthRun.start] at h, trivial⟩
  exact hkeep hfresh

theorem nodup_consumed (h : Causal SingleUse history) : (consumedValues history).Nodup := by
  induction history with
  | nil => exact List.nodup_nil
  | cons r earlier ih =>
    cases r with
    | issued challenge now => exact ih h.2
    | accepted c now =>
      rw [consumedValues_accepted, List.nodup_cons]
      exact ⟨h.1.2, ih h.2⟩

theorem size_outcome (h : Outcome s a t) (hs : s.state.agentChallenges.size ≤ maxAgentChallenges) :
    t.state.agentChallenges.size ≤ maxAgentChallenges := by
  cases h with
  | unsigned => exact hs
  | refused => exact le_trans (Table.size_filter_le _ _) hs
  | challenge horder => exact size_handleAgentChallenge horder hs
  | @accepted _ c t htaken =>
    dsimp only
    rw [htaken.challenges]
    exact le_trans (Table.size_erase_le _ _) (le_trans (Table.size_filter_le _ _) hs)

theorem size_run (hrun : (agentAuth env).run .start as = some s) :
    s.state.agentChallenges.size ≤ maxAgentChallenges := by
  apply (agentAuth env).run_invariant ?_ ?_ hrun
  · intro s a t hs hstep
    exact size_outcome (outcome_of_step hstep) hs
  · exact Nat.zero_le _

/-! ### Nonces under a clock that never goes backward -/

/-- An accepted nonce comes back only after the window of its earlier timestamp. -/
def Unrepeated : AuthRecord → List AuthRecord → Prop
  | .issued _ _, _ => True
  | .accepted c now, earlier =>
    ∀ c' now', .accepted c' now' ∈ earlier → c'.nonce = c.nonce → 5 * minute < now - c'.ts

/-- At clock reading `clock`, an accepted nonce is remembered or its timestamp has left the window. -/
structure Remembered (clock : ℤ) (s : AuthRun) : Prop where
  nonces : ∀ c now, .accepted c now ∈ s.history →
    s.state.nonces.lookup c.nonce = some c.ts ∨ 5 * minute < clock - c.ts
  history : Causal Unrepeated s.history

theorem Remembered.mono {clock' : ℤ} (h : Remembered clock s) (hle : clock ≤ clock') : Remembered clock' s := by
  refine ⟨?_, h.history⟩
  intro c now hmem
  rcases h.nonces c now hmem with hlookup | hold
  · exact .inl hlookup
  · exact .inr (by omega)

/-- A cleanup forgets a nonce only after its window. -/
theorem Remembered.cleanup (h : Remembered clock s) (hle : now ≤ clock) {c : Credentials} {at' : ℤ}
    (hmem : .accepted c at' ∈ s.history) :
    (cleanupAgentAuthState now s.state).nonces.lookup c.nonce = some c.ts ∨ 5 * minute < clock - c.ts := by
  rcases h.nonces c at' hmem with hlookup | hold
  · by_cases hwindow : now - c.ts ≤ 5 * minute
    · exact .inl (lookup_cleanup_nonces.mpr ⟨hlookup, hwindow⟩)
    · exact .inr (by omega)
  · exact .inr hold

theorem remembered_outcome (hs : Remembered a.clock s) (h : Outcome s a t)
    (hread : ∀ value now clock order, a = .challenge value now clock order → now ≤ clock) :
    Remembered a.clock t := by
  cases h with
  | unsigned => exact hs
  | refused => exact ⟨fun c now hmem => hs.cleanup le_rfl hmem, hs.history⟩
  | @challenge value now clock order horder =>
    refine ⟨?_, trivial, hs.history⟩
    intro c at' hmem
    have hmem : .accepted c at' ∈ s.history := by simpa using hmem
    exact hs.cleanup (hread value now clock order rfl) hmem
  | @accepted _ c t htaken =>
    refine ⟨?_, ?_, hs.history⟩
    · intro c' now' hmem
      dsimp only
      rw [htaken.nonces, Table.lookup_insert_eq]
      rcases List.mem_cons.mp hmem with heq | hmem
      · obtain ⟨rfl, rfl⟩ := AuthRecord.accepted.inj heq
        exact .inl (if_pos rfl)
      · rcases hs.cleanup le_rfl hmem with hlookup | hold
        · left
          rw [if_neg, hlookup]
          intro hsame
          rw [hsame, htaken.unused] at hlookup
          cases hlookup
        · exact .inr hold
    · intro c' now' hmem hsame
      rcases hs.cleanup le_rfl hmem with hlookup | hold
      · rw [hsame, htaken.unused] at hlookup
        cases hlookup
      · exact hold

theorem remembered_run (hs : Remembered clock s) (hclock : ∀ a ∈ as, clock ≤ a.clock) (hforward : ForwardClock as)
    (hrun : (agentAuth env).run s as = some t) : Causal Unrepeated t.history := by
  induction as generalizing s clock with
  | nil =>
    cases hrun
    exact hs.history
  | cons a as ih =>
    obtain ⟨s', hstep, hrun⟩ := (agentAuth env).run_cons.mp hrun
    obtain ⟨hsorted, hreads⟩ := hforward
    rw [List.map_cons, List.pairwise_cons] at hsorted
    have hnow := hs.mono (hclock a List.mem_cons_self)
    have hnext := remembered_outcome hnow (outcome_of_step hstep) (by
      rintro value now clock order rfl
      exact hreads _ List.mem_cons_self)
    exact ih hnext (fun b hb => hsorted.1 _ (List.mem_map_of_mem hb))
      ⟨hsorted.2, fun b hb => hreads b (List.mem_cons_of_mem _ hb)⟩ hrun

theorem unrepeated_run (hforward : ForwardClock as) (hrun : (agentAuth env).run .start as = some s) :
    Causal Unrepeated s.history := by
  cases as with
  | nil =>
    cases hrun
    trivial
  | cons a as =>
    have hsorted := hforward.1
    rw [List.map_cons, List.pairwise_cons] at hsorted
    have hstart : Remembered a.clock .start := ⟨fun c now hmem => by simp [AuthRun.start] at hmem, trivial⟩
    apply remembered_run hstart ?_ hforward hrun
    intro b hb
    rcases List.mem_cons.mp hb with rfl | hb
    · exact le_rfl
    · exact hsorted.1 _ (List.mem_map_of_mem hb)

/-- Agent credentials are single use. In every run at most `maxAgentChallenges` challenges are stored. If no
challenge is issued twice, an accepted request consumes a challenge that was issued earlier, had not expired and had
not been consumed, and consumed challenges are no longer stored. If the clock never goes backward, a nonce is
accepted again only after the signed timestamp of its earlier acceptance has left the window. -/
theorem agentCredentials_single_use {env : AgentAuthEnv} {as : List AuthAction} {s : AuthRun}
    (hrun : (agentAuth env).run .start as = some s) :
    s.state.agentChallenges.size ≤ maxAgentChallenges ∧
      ((issuedValues s.history).Nodup →
        (∀ later c now earlier, s.history = later ++ .accepted c now :: earlier →
          (∃ issued, .issued c.challenge issued ∈ earlier ∧ now - issued ≤ agentChallengeTTL) ∧
            c.challenge ∉ consumedValues earlier) ∧
        (consumedValues s.history).Nodup ∧
        ∀ challenge ∈ consumedValues s.history, s.state.agentChallenges.lookup challenge = none) ∧
      (ForwardClock as →
        ∀ later c' now' between c now earlier,
          s.history = later ++ .accepted c' now' :: (between ++ .accepted c now :: earlier) →
            c'.nonce = c.nonce → 5 * minute < now' - c.ts) := by
  refine ⟨size_run hrun, ?_, ?_⟩
  · intro hfresh
    have hspent := spent_run hrun hfresh
    refine ⟨?_, nodup_consumed hspent.history, ?_⟩
    · intro later c now earlier hsplit
      have hcausal := hspent.history
      rw [hsplit] at hcausal
      exact hcausal.at
    · intro challenge hconsumed
      apply Option.eq_none_iff_forall_ne_some.mpr
      intro issued hlookup
      exact (hspent.stored challenge issued hlookup).2 hconsumed
  · intro hforward later c' now' between c now earlier hsplit hsame
    have hcausal := unrepeated_run hforward hrun
    rw [hsplit] at hcausal
    exact hcausal.at c now (List.mem_append_right _ List.mem_cons_self) hsame.symm

/-- A library whose keys and signatures have the right length and which knows two timestamps. -/
def plainEnv : AgentAuthEnv where
  agentPublicKey := "key"
  decodeString text := some (List.replicate (if text = "key" then publicKeySize else signatureSize) 0)
  parseTime text := some (if text = "early" then 0 else 6 * minute)
  verify _ _ _ := true

def plainRequest (timestamp nonce challenge : String) : AgentRequest where
  path := "/ws/agent"
  timestamp := timestamp
  nonce := nonce
  signature := "signature"
  challenge := challenge
  handshakeKey := "handshake"

/-- A consumed challenge is offered again and refused; a nonce comes back after its window and is accepted. -/
def plainRun : List AuthAction :=
  [.challenge "a" 10 20 [], .challenge "b" 15 30 ["a"], .connect (plainRequest "early" "n" "a") 30 40,
    .connect (plainRequest "early" "m" "a") 40 50, .challenge "c" (6 * minute) (6 * minute) [],
    .connect (plainRequest "late" "n" "c") (6 * minute) (6 * minute + 1)]

def plainHistory : List AuthRecord :=
  [.accepted ⟨"c", "n", 6 * minute⟩ (6 * minute + 1), .issued "c" (6 * minute), .accepted ⟨"a", "n", 0⟩ 40,
    .issued "b" 15, .issued "a" 10]

theorem agentCredentials_single_use_plain :
    ∃ s, (agentAuth plainEnv).run .start plainRun = some s ∧ (issuedValues s.history).Nodup ∧
      ForwardClock plainRun ∧ s.history = plainHistory ∧ s.state.agentChallenges.lookup "a" = none ∧
      5 * minute < 6 * minute + 1 - 0 := by
  have hsome : ((agentAuth plainEnv).run .start plainRun).isSome = true := by decide +kernel
  obtain ⟨s, hrun⟩ := Option.isSome_iff_exists.mp hsome
  have hhistory : s.history = plainHistory := by
    have hmap : ((agentAuth plainEnv).run .start plainRun).map AuthRun.history = some plainHistory := by
      decide +kernel
    rw [hrun] at hmap
    exact Option.some.inj hmap
  have hfresh : (issuedValues s.history).Nodup := by
    rw [hhistory]
    decide
  have hforward : ForwardClock plainRun := by
    refine ⟨by decide, ?_⟩
    simp [plainRun]
  obtain ⟨-, hspent, hwindow⟩ := agentCredentials_single_use hrun
  refine ⟨s, hrun, hfresh, hforward, hhistory, (hspent hfresh).2.2 "a" ?_, ?_⟩
  · rw [hhistory]
    decide
  · exact hwindow hforward [] ⟨"c", "n", 6 * minute⟩ _ [.issued "c" (6 * minute)] ⟨"a", "n", 0⟩ 40
      [.issued "b" 15, .issued "a" 10] hhistory rfl

end Onprest.Gateway
