import Vpp.Ikev2.SaInit
import Vpp.Lib.Run

/-!
# Message ids of an IKE SA

`ikev2_node_internal` takes note of the id of a request before the request is decrypted, so that a forged
one can push the id on, past those of the peer. A forged IKE_AUTH deletes the SA, and a forged
INFORMATIONAL counts as a sign of life.
-/

namespace Vpp.Ikev2

open Lib

inductive Exchange
  | ikeAuth
  | informational
  | createChildSa
deriving DecidableEq, Repr

structure Message (B : Type) where
  exchange : Exchange
  isResponse : Bool
  msgId : BitVec 32
  sk : B
deriving DecidableEq, Repr

/-- What `ikev2_decrypt_sk_payload` makes of a message. -/
inductive Decrypted (P : Type)
  | plain (p : P)
  /-- The integrity check or the decryption fails. -/
  | failed
  /-- A critical payload that is not known stands before the SK payload. -/
  | critical (payload : Byte)
deriving DecidableEq, Repr

/-- What a request can change of `ikev2_sa_t` once it is decrypted. -/
structure Contents (C R : Type) where
  state : State
  unsupportedCp : Byte
  childs : List C
  del : List Delete
  rekey : List R
  newChild : List R
deriving DecidableEq, Repr

structure Sa (C R : Type) extends Contents C R where
  lastMsgId : BitVec 32
  livenessRetries : BitVec 8
  isInitiator : Bool
deriving DecidableEq, Repr

/-! ## The node -/

section Node

-- What `ikev2_decrypt_sk_payload` makes of a message with the keys of the SA.
variable {B P C R : Type} (decrypt : Message B → Decrypted P)
  -- What the three exchanges do with a message that is decrypted.
  (serve : Message B → P → Contents C R → Contents C R)

/-- `ikev2_retransmit_resp`: whether to process the message. A request with the last id is answered again, an
older one ignored. -/
def retransmitResp (sa : Sa C R) (m : Message B) : Sa C R × Bool :=
  if m.isResponse then (sa, true)
  else if sa.lastMsgId < m.msgId ∨ sa.lastMsgId = BitVec.allOnes 32 then
    ({ sa with lastMsgId := m.msgId }, true)
  else (sa, false)

def served (sa : Sa C R) (m : Message B) (p : P) : Sa C R × Option (BitVec 32) :=
  ({ sa with toContents := serve m p sa.toContents }, if m.isResponse then none else some m.msgId)

/-- `ikev2_process_auth_req`, and what follows it for an initiator. -/
def processAuth (sa : Sa C R) (m : Message B) : Sa C R × Option (BitVec 32) :=
  let (sa, id) := match decrypt m with
    | .plain p => served serve sa m p
    | .critical cp => ({ sa with unsupportedCp := cp, state := .notifyAndDelete }, none)
    | .failed =>
      ({ sa with state := if sa.unsupportedCp ≠ 0 then .notifyAndDelete else .deleted }, none)
  (if sa.isInitiator then { sa with lastMsgId := BitVec.allOnes 32 } else sa, id)

/-- `ikev2_process_create_child_sa_req`, and `ikev2_process_informational_req` but for the sign of
life. -/
def processOther (sa : Sa C R) (m : Message B) : Sa C R × Option (BitVec 32) :=
  match decrypt m with
  | .plain p => served serve sa m p
  | .critical cp => ({ sa with unsupportedCp := cp }, none)
  | .failed => (sa, none)

def processMessage (sa : Sa C R) (m : Message B) : Sa C R × Option (BitVec 32) :=
  match m.exchange with
  | .ikeAuth => processAuth decrypt serve sa m
  | .informational => processOther decrypt serve { sa with livenessRetries := 0 } m
  | .createChildSa => processOther decrypt serve sa m

/-- At `dispatch0` the SA may be deleted. -/
def kept (sa : Sa C R) : Option (Sa C R) :=
  if sa.state = .deleted ∨ sa.state = .notifyAndDelete then none else some sa

/-- A message for an SA, with the id of the request that is processed. -/
def receive (sa? : Option (Sa C R)) (m : Message B) : Option (Sa C R) × Option (BitVec 32) :=
  match sa? with
  | none => (none, none)
  | some sa =>
    let (sa, fresh) := retransmitResp sa m
    let (sa, id) := if fresh then processMessage decrypt serve sa m else (sa, none)
    (kept sa, id)

end Node

/-! ## Forged messages -/

variable {B P C R : Type} {decrypt : Message B → Decrypted P}
  {serve : Message B → P → Contents C R → Contents C R}

section Forged

variable {sa : Sa C R} {m : Message B}

/-- The message gets past `ikev2_retransmit_resp`. -/
def Fresh (sa : Sa C R) (m : Message B) : Prop :=
  m.isResponse = true ∨ sa.lastMsgId < m.msgId ∨ sa.lastMsgId = BitVec.allOnes 32

instance (sa : Sa C R) (m : Message B) : Decidable (Fresh sa m) := inferInstanceAs (Decidable (_ ∨ _))

/-- The SA is there as before, and the same messages get past the check of their ids. -/
def Undisturbed (sa : Sa C R) (sa? : Option (Sa C R)) : Prop :=
  ∃ sa', sa? = some sa' ∧ sa'.lastMsgId = sa.lastMsgId ∧ sa'.livenessRetries = sa.livenessRetries ∧
    sa'.childs = sa.childs ∧ sa'.del = sa.del ∧ sa'.rekey = sa.rekey ∧ sa'.newChild = sa.newChild ∧
    ∀ g : Message B, Fresh sa' g ↔ Fresh sa g

/-- The forged messages that do no harm: old requests, and otherwise responses, or requests that keep the id,
which neither belong to IKE_AUTH nor bring a silent peer to life. -/
def Harmless (sa : Sa C R) (m : Message B) : Prop :=
  ¬ Fresh sa m ∨ m.exchange ≠ .ikeAuth ∧ (m.isResponse = true ∨ m.msgId = sa.lastMsgId) ∧
    (m.exchange = .informational → sa.livenessRetries = 0)

theorem retransmitResp_eq :
    (¬ Fresh sa m → retransmitResp sa m = (sa, false)) ∧
      (Fresh sa m → retransmitResp sa m =
        ({ sa with lastMsgId := if m.isResponse then sa.lastMsgId else m.msgId }, true)) := by
  unfold Fresh retransmitResp
  cases m.isResponse
  · simp only [Bool.false_eq_true, false_or]
    exact ⟨fun h => if_neg h, fun h => if_pos h⟩
  · exact ⟨fun h => absurd (.inl rfl) h, fun _ => rfl⟩

theorem receive_of_not_fresh (hstate : sa.state = .authenticated) (h : ¬ Fresh sa m) :
    receive decrypt serve (some sa) m = (some sa, none) := by
  simp [receive, retransmitResp_eq.1 h, kept, hstate]

theorem receive_forged (hstate : sa.state = .authenticated) (h : Fresh sa m)
    (hforged : decrypt m = .failed) :
    receive decrypt serve (some sa) m =
      (if m.exchange = .ikeAuth then none
        else some { sa with
          lastMsgId := if m.isResponse then sa.lastMsgId else m.msgId
          livenessRetries := if m.exchange = .informational then 0 else sa.livenessRetries }, none) := by
  cases hex : m.exchange with
  | ikeAuth =>
    simp only [receive, retransmitResp_eq.2 h, processMessage, hex, processAuth, hforged, kept]
    by_cases hcp : sa.unsupportedCp = 0 <;> cases sa.isInitiator <;> simp
  | informational =>
    simp [receive, retransmitResp_eq.2 h, processMessage, hex, processOther, hforged, kept,
      hstate]
  | createChildSa =>
    simp [receive, retransmitResp_eq.2 h, processMessage, hex, processOther, hforged, kept,
      hstate]

/-- **Forged messages.** One that cannot be decrypted leaves an established SA undisturbed iff it is harmless.
-/
theorem forged_undisturbed_iff (hstate : sa.state = .authenticated) (hforged : decrypt m = .failed) :
    Undisturbed (B := B) sa (receive decrypt serve (some sa) m).1 ↔ Harmless sa m := by
  by_cases hfresh : Fresh sa m
  · rw [receive_forged hstate hfresh hforged]
    have hid : (if m.isResponse = true then sa.lastMsgId else m.msgId) = sa.lastMsgId ↔
        m.isResponse = true ∨ m.msgId = sa.lastMsgId := by
      cases m.isResponse <;> simp
    have hlive : (if m.exchange = .informational then 0 else sa.livenessRetries) = sa.livenessRetries ↔
        (m.exchange = .informational → sa.livenessRetries = 0) := by
      by_cases h : m.exchange = .informational
      · rw [if_pos h]
        exact ⟨fun h0 _ => h0.symm, fun h0 => (h0 h).symm⟩
      · simp [h]
    refine ⟨fun ⟨sa', heq, hlast, hret, _⟩ => ?_, fun h => ?_⟩
    · split at heq
      · cases heq
      · rename_i hauth
        obtain rfl := Option.some.inj heq
        exact .inr ⟨hauth, hid.mp hlast, hlive.mp hret⟩
    · obtain ⟨hauth, hsame, hquiet⟩ := h.resolve_left (not_not.mpr hfresh)
      rw [if_neg hauth, hid.mpr hsame, hlive.mpr hquiet]
      exact ⟨_, rfl, rfl, rfl, rfl, rfl, rfl, rfl, fun _ => Iff.rfl⟩
  · rw [receive_of_not_fresh hstate hfresh]
    exact ⟨fun _ => .inl hfresh, fun _ => ⟨sa, rfl, rfl, rfl, rfl, rfl, rfl, rfl, fun _ => Iff.rfl⟩⟩

end Forged

/-! ## Requests processed twice -/

/-- The id is not the one that stands for none, nor taken back by an IKE_AUTH. -/
def Counted (sa? : Option (Sa C R)) (m : Message B) : Prop :=
  ∀ sa, sa? = some sa → (m.isResponse = true ∨ m.msgId ≠ BitVec.allOnes 32) ∧
    (m.exchange = .ikeAuth → sa.isInitiator = false)

theorem eq_of_kept {sa sa' : Sa C R} (h : kept sa = some sa') : sa' = sa := by
  unfold kept at h
  split at h
  · cases h
  · exact (Option.some.inj h).symm

variable (decrypt serve) in
theorem processMessage_id (sa : Sa C R) {m : Message B}
    (h : m.exchange = .ikeAuth → sa.isInitiator = false) :
    (processMessage decrypt serve sa m).1.lastMsgId = sa.lastMsgId ∧
      ∀ i, (processMessage decrypt serve sa m).2 = some i → m.isResponse = false ∧ m.msgId = i := by
  unfold processMessage processAuth processOther served
  cases hex : m.exchange <;> cases decrypt m <;> cases hresp : m.isResponse <;> simp_all

variable (decrypt serve) in
/-- What a counted message does to the id: only a fresh request is processed, which then is the id. -/
theorem receive_counted {sa : Sa C R} {m : Message B} (h : Counted (some sa) m) :
    (∀ i, (receive decrypt serve (some sa) m).2 = some i →
      m.isResponse = false ∧ Fresh sa m ∧ m.msgId = i) ∧
    ∀ sa', (receive decrypt serve (some sa) m).1 = some sa' → sa'.lastMsgId =
      if Fresh sa m ∧ m.isResponse = false then m.msgId else sa.lastMsgId := by
  by_cases hfresh : Fresh sa m
  · obtain ⟨hlast, hproc⟩ := processMessage_id decrypt serve
      { sa with lastMsgId := if m.isResponse then sa.lastMsgId else m.msgId } (h sa rfl).2
    simp only [receive, retransmitResp_eq.2 hfresh, if_true]
    refine ⟨fun i hi => ⟨(hproc i hi).1, hfresh, (hproc i hi).2⟩, fun sa' hsa' => ?_⟩
    rw [eq_of_kept hsa', hlast]
    cases m.isResponse <;> simp [hfresh]
  · rw [if_neg fun hand => hfresh hand.1]
    simp only [receive, retransmitResp_eq.1 hfresh]
    exact ⟨fun i hi => (by cases hi), fun sa' hsa' => by rw [eq_of_kept hsa']; rfl⟩

/-- The ids of the requests processed so far are not above the last one. -/
def Recorded (sa? : Option (Sa C R)) (es : List (Option (BitVec 32))) : Prop :=
  (es.filterMap id).Nodup ∧ ∀ sa, sa? = some sa →
    ∀ i ∈ es.filterMap id, i ≤ sa.lastMsgId ∧ sa.lastMsgId ≠ BitVec.allOnes 32

theorem recorded_step {sa? : Option (Sa C R)} {m : Message B} {es : List (Option (BitVec 32))}
    (hrec : Recorded sa? es) (hm : Counted sa? m) :
    Recorded (receive decrypt serve sa? m).1 (es ++ [(receive decrypt serve sa? m).2]) := by
  obtain ⟨hnodup, hle⟩ := hrec
  unfold Recorded
  rw [List.filterMap_append]
  cases sa? with
  | none =>
    refine ⟨by simpa [receive] using hnodup, fun sa h => ?_⟩
    cases h
  | some sa =>
    obtain ⟨hproc, hlast⟩ := receive_counted decrypt serve hm
    have hold := hle sa rfl
    -- A fresh request is above all ids so far.
    have hlt : Fresh sa m → m.isResponse = false → ∀ i ∈ es.filterMap id, i < m.msgId := by
      intro hfresh hreq i hi
      rcases hfresh with hresp | hlt | hall
      · rw [hreq] at hresp
        cases hresp
      · have := (hold i hi).1
        bv_omega
      · exact absurd hall (hold i hi).2
    have hnew : ∀ sa', (receive decrypt serve (some sa) m).1 = some sa' → ∀ i ∈ es.filterMap id,
        i ≤ sa'.lastMsgId ∧ sa'.lastMsgId ≠ BitVec.allOnes 32 := by
      intro sa' hsa' i hi
      rw [hlast sa' hsa']
      split
      · rename_i hfresh
        have := hlt hfresh.1 hfresh.2 i hi
        exact ⟨by bv_omega, ((hm sa rfl).1.resolve_left (by rw [hfresh.2]; decide))⟩
      · exact hold i hi
    cases hout : (receive decrypt serve (some sa) m).2 with
    | none => exact ⟨by simpa using hnodup, fun sa' hsa' i hi => hnew sa' hsa' i (by simpa using hi)⟩
    | some j =>
      obtain ⟨hreq, hfresh, rfl⟩ := hproc j hout
      refine ⟨?_, fun sa' hsa' i hi => ?_⟩
      · refine hnodup.append (List.nodup_singleton _) (List.disjoint_singleton.mpr fun hmem => ?_)
        exact absurd (hlt hfresh hreq _ hmem) (BitVec.lt_irrefl _)
      rcases List.mem_append.mp hi with hi | hi
      · exact hnew sa' hsa' i hi
      · obtain rfl := List.mem_singleton.mp hi
        rw [hlast sa' hsa', if_pos ⟨hfresh, hreq⟩]
        exact ⟨BitVec.le_refl _, (hm sa rfl).1.resolve_left (by rw [hreq]; decide)⟩

/-- **No request twice.** In a run of counted messages no two processed requests have the same id. -/
theorem processed_nodup {sa : Sa C R} {ms : List (Message B)}
    (hms : Along (receive decrypt serve) Counted (some sa) ms) :
    ((outputs (receive decrypt serve) (some sa) ms).filterMap id).Nodup := by
  have hstart : Recorded (some sa) [] := ⟨List.nodup_nil, fun _ _ i hi => (by cases hi)⟩
  exact (hms.history Recorded (fun _ _ _ hrec hm => recorded_step hrec hm) hstart).1

def established (isInitiator : Bool) : Sa Unit Unit :=
  ⟨⟨.authenticated, 0, [()], [], [], []⟩, 5, 2, isInitiator⟩

def decryptGenuine (m : Message Bool) : Decrypted Unit := if m.sk then .plain () else .failed

def unaffected (_ : Message Bool) (_ : Unit) (c : Contents Unit Unit) : Contents Unit Unit := c

end Vpp.Ikev2
