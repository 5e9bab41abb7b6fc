import RecordStore.Cache.Service
import RecordStore.Proofs.Schedules

/-!
# Calls with nothing in between

A call on a cache is a program, and an admission has up to four steps.  Where nobody else goes on
between them, the program has the answer of `Running.serve`, and leaves the cache as that does
(`Service.advance_serve`).  It asks for nothing but its own steps, so it is never held up.
-/

namespace RecordStore

namespace Cache

/-- A running cache as an environment of callers at a time.  Its worker has no events meanwhile. -/
def Running.environment (now : Nat) : Environment Effects Running where
  reply? caller
    | .nextEvent, r => (none, r)
    | q, r => r.reply? caller now q

namespace Service

variable {α : Type} {r : Running} {caller now : Nat}

theorem advance_requestPass : requestPass.advance (Running.environment now) caller r
    = (.done (), r.requestPass) := by
  have hnote : (ask .noteRequest).advance (Running.environment now) caller r
      = (.done r.requested, r.noteRequest.2) := rfl
  refine (Program.advance_bind _ hnote).trans ?_
  have hpass : r.requestPass = if r.requested then r.noteRequest.2
      else if r.noteRequest.2.queueRequest.1 then r.noteRequest.2.queueRequest.2
      else r.noteRequest.2.queueRequest.2.withdrawRequest := rfl
  rw [hpass]
  generalize r.noteRequest.2 = noted
  cases r.requested with
  | true => rfl
  | false =>
      have hqueue : (ask .queueRequest).advance (Running.environment now) caller noted
          = (.done noted.queueRequest.1, noted.queueRequest.2) := rfl
      refine (Program.advance_bind _ hqueue).trans ?_
      cases noted.queueRequest.1 <;> rfl

theorem advance_offer (key : Key) (record : Record) :
    (offer key record).advance (Running.environment now) caller r
      = (.done (r.offer key record).1, (r.offer key record).2) := by
  have hreceive : (ask (.receive key record)).advance (Running.environment now) caller r
      = (.done (r.receive key record).1, (r.receive key record).2) := rfl
  refine (Program.advance_bind _ hreceive).trans ?_
  simp only [Running.offer]
  generalize r.receive key record = answer
  obtain ⟨⟨admitted, full⟩, r'⟩ := answer
  cases full with
  | true => exact Program.advance_bind _ advance_requestPass
  | false => rfl

theorem advance_offerAll (entries : List Entry) :
    (offerAll entries).advance (Running.environment now) caller r
      = (.done (r.offerAll entries).1, (r.offerAll entries).2) := by
  induction entries generalizing r with
  | nil => rfl
  | cons e entries ih =>
      refine (Program.advance_bind _ (advance_offer e.1 e.2)).trans ?_
      exact Program.advance_bind _ ih

/-- A call has the answer of a cache that nobody else uses meanwhile. -/
theorem advance_serve (backendName : String) {call : Call} (hcall : call ≠ .shutdown) :
    (serve backendName call).advance (Running.environment now) caller r
      = (.done (r.serve call).1, (r.serve call).2) := by
  cases call with
  | save record key => exact Program.advance_bind _ (advance_offer key record)
  | saveBatch entries => exact Program.advance_bind _ (advance_offerAll entries)
  | update record key reason => exact Program.advance_bind _ (advance_offer key record)
  | shutdown => exact absurd rfl hcall
  | _ => exact Program.advance_ask rfl

end Service

end Cache

end RecordStore
