import Fronta.Claim.Lemmas.Query
import Fronta.Claim.Lemmas.Running

/-!
# What a claim knows while it holds its locks

Each type that a claim entered is published, unpaused and locked against changes; under a limit it is
locked against other claims too, so its running rows plus the claim's own only fall.
-/

namespace Fronta.Claim

open Sql

/-- The lock of `p` on an unpaused type keeps its row as it is, and under a limit its claims out. -/
structure Secured (s : Sys) (p : TxnId) (name : Name) (ty : TaskType) : Prop where
  current : s.catalog name = some ty
  unpaused : ty.paused = false
  shared : ∃ m, s.locks.Holds name p m ∧ m.compatible .noKeyUpdate = false
  exclusive : ty.limited = true → s.locks.Holds name p .update

/-- The admitted rows of a type. -/
def admittedOf (reserved : List (Name × Option String)) (type : Name) : ℕ :=
  (reserved.filter fun y => y.1 = type).length

/-- The admitted rows of a type and key. -/
def reservedOf (reserved : List (Name × Option String)) (type : Name) (key : String) : ℕ :=
  (reserved.filter fun y => y = (type, some key)).length

structure EntryOk (s : Sys) (p : TxnId) (reserved : List (Name × Option String)) (e : Entry) :
    Prop where
  secured : Secured s p e.type ⟨e.limit, e.keyLimit, false⟩
  total : ∀ n, e.limit = some n → running s.db.tasks e.type + admittedOf reserved e.type ≤ e.count ∧
    (0 < admittedOf reserved e.type → e.count ≤ n)
  keyed : ∀ n key, e.keyLimit = some n → 0 < reservedOf reserved e.type key →
    runningKey s.db.tasks e.type key + reservedOf reserved e.type key ≤ n

/-- The rows of the round that a claim still has in hand. -/
def Pc.candidates : Pc → List Candidate
  | .scan | .apply => []
  | .loop _ rest => rest.map Pick.candidate
  | .share c rest | .exclusive c rest | .recount c _ rest | .check c rest =>
      c :: rest.map Pick.candidate

/-- What the next statement relies on. -/
def PcOk (s : Sys) (p : TxnId) (v : Vars) : Pc → Prop
  | .share c _ | .exclusive c _ => v.entry c.type = none
  | .recount c ty _ => v.entry c.type = none ∧ Secured s p c.type ty
  | _ => True

structure VarsOk (s : Sys) (p : TxnId) (v : Vars) : Prop where
  rows : List.Forall₂ (RowFits s.db.tasks) v.ids v.reserved
  entered : ∀ y ∈ v.reserved, ∃ e ∈ v.entries, e.type = y.1
  distinct : (v.entries.map Entry.type).Nodup
  entries : ∀ e ∈ v.entries, EntryOk s p v.reserved e

structure CallOk (s : Sys) (p : TxnId) (x : Call) : Prop where
  vars : VarsOk s p x.vars
  candidates : ∀ c ∈ x.pc.candidates, RowFits s.db.tasks c.id (c.type, c.concurrencyKey)
  pc : PcOk s p x.vars x.pc

def TxnOk (s : Sys) (p : TxnId) : Txn → Prop
  | .claim x => CallOk s p x
  | .writer staged => ∀ y ∈ staged, s.locks.Holds y.1 p .noKeyUpdate

structure Inv (s : Sys) : Prop where
  sound : s.locks.Sound
  txns : ∀ p x, s.txns.get p = some x → TxnOk s p x

/-! ## What others may do to a transaction -/

/-- What a step by others leaves to the transaction `p`. -/
structure Frame (s s' : Sys) (p : TxnId) : Prop where
  held : ∀ name m, s.locks.Holds name p m → s'.locks.Holds name p m
  fits : ∀ id y, RowFits s.db.tasks id y → RowFits s'.db.tasks id y
  current : ∀ name ty, Secured s p name ty → s'.catalog name = some ty
  running : ∀ name ty, Secured s p name ty → ty.limited = true →
    running s'.db.tasks name ≤ running s.db.tasks name ∧
      ∀ key, runningKey s'.db.tasks name key ≤ runningKey s.db.tasks name key

variable {s s' : Sys} {p q : TxnId} {name : Name} {ty : TaskType} {e : Entry}
  {reserved : List (Name × Option String)} {x : Call} {v v' : Vars} {c : Candidate}

theorem Secured.frame (h : Secured s p name ty) (hf : Frame s s' p) : Secured s' p name ty where
  current := hf.current name ty h
  unpaused := h.unpaused
  shared := by
    obtain ⟨m, hm, hc⟩ := h.shared
    exact ⟨m, hf.held name m hm, hc⟩
  exclusive hl := hf.held name .update (h.exclusive hl)

theorem EntryOk.frame (h : EntryOk s p reserved e) (hf : Frame s s' p) :
    EntryOk s' p reserved e where
  secured := h.secured.frame hf
  total n hn := by
    have hr := (hf.running _ _ h.secured (by simp [TaskType.limited, hn])).1
    obtain ⟨h₁, h₂⟩ := h.total n hn
    exact ⟨by omega, h₂⟩
  keyed n key hn hpos := by
    have hr := (hf.running _ _ h.secured (by simp [TaskType.limited, hn])).2 key
    have := h.keyed n key hn hpos
    omega

theorem VarsOk.frame (h : VarsOk s p v) (hf : Frame s s' p) : VarsOk s' p v where
  rows := h.rows.imp hf.fits
  entered := h.entered
  distinct := h.distinct
  entries e he := (h.entries e he).frame hf

theorem CallOk.frame (h : CallOk s p x) (hf : Frame s s' p) : CallOk s' p x where
  vars := h.vars.frame hf
  candidates c hc := hf.fits _ _ (h.candidates c hc)
  pc := by
    have := h.pc
    unfold PcOk at this ⊢
    split at this
    · exact this
    · exact this
    · exact ⟨this.1, this.2.frame hf⟩
    · trivial

theorem TxnOk.frame {x : Txn} (h : TxnOk s p x) (hf : Frame s s' p) : TxnOk s' p x := by
  cases x with
  | claim x => exact CallOk.frame h hf
  | writer staged => exact fun y hy => hf.held _ _ (h y hy)

/-- A step that leaves the tables and keeps the locks of `p`. -/
theorem Frame.of_locks (hd : s'.db = s.db) (hc : s'.catalog = s.catalog)
    (hl : ∀ name m, s.locks.Holds name p m → s'.locks.Holds name p m) : Frame s s' p where
  held := hl
  fits := by rw [hd]; exact fun _ _ => id
  current name ty h := by rw [hc]; exact h.current
  running := by rw [hd]; exact fun _ _ _ _ => ⟨Nat.le_refl _, fun _ => Nat.le_refl _⟩

theorem Secured.no_writer (h : Secured s p name ty) (hs : s.locks.Sound) (hpq : p ≠ q) :
    ¬ s.locks.Holds name q .noKeyUpdate := by
  intro hq
  obtain ⟨m, hm, hc⟩ := h.shared
  exact hpq (hs.eq_of_conflict hm hq hc)

end Fronta.Claim
