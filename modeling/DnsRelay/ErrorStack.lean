import Mathlib.Algebra.Ring.Nat
import DnsRelay.Codec
set_option autoImplicit false

/-!
The error context of exception.c: a stack of messages that grows down from the
end of an array of characters, with a newline in front of each.
-/

namespace DnsRelay

open Lib Lib.Exec

def msgSize : Nat := 4096

def writeAt (m : Bytes) (i : Int) (bs : Bytes) : Exec Bytes :=
  if i < 0 then .fault .outOfBounds else writeBytes m i.toNat bs

/-- What a formatted text leaves as a C string in an array of 512 characters. -/
def formatted (text : Bytes) : Bytes := (text.take 511).takeWhile fun b => decide (b ≠ 0)

structure ErrorStack where
  msg : Bytes
  errFlag : Bool
  stackTop : Int

namespace ErrorStack

def init : ErrorStack := ⟨List.replicate msgSize 0,false,msgSize-1⟩

def exTry (s : ErrorStack) : Exec ErrorStack := do
  let stackTop : Int := msgSize-1
  let msg ← writeAt s.msg stackTop [0]
  .ok { msg, errFlag := true, stackTop }

def exCatch (s : ErrorStack) : Int :=
  if s.errFlag = true ∧ s.stackTop < msgSize-1 then 1 else 0

/-- The bound is checked for the text, and the newline is written below it. -/
def exThrow (s : ErrorStack) (text : Bytes) : Exec ErrorStack := do
  let s ← if s.errFlag then .ok s else s.exTry
  let message := formatted text
  let len : Int := message.length
  if len = 0 then .ok s
  else
    let netR := s.stackTop-len
    if netR < 0 then .ok s
    else do
      let msg ← writeAt s.msg netR message
      let netR := netR-1
      let msg ← writeAt msg netR [10]
      .ok { s with msg, stackTop := netR }

/-- The string that is returned stands in `msg` until the next message is thrown. -/
def exEnd (s : ErrorStack) : Exec (Bytes × ErrorStack) :=
  if s.errFlag then do
    let s := { s with errFlag := false }
    let text ← if s.stackTop < 0 then .fault .outOfBounds else readCString s.msg s.stackTop.toNat
    .ok (text,s)
  else .ok ([],s)

inductive Op where
  | exTry
  | exThrow (text : Bytes)
  | exCatch
  | exEnd

inductive Reply where
  | done
  | caught (ret : Int)
  | ended (text : Bytes)
  deriving DecidableEq

def call (s : ErrorStack) : Op → Exec (Reply × ErrorStack)
  | .exTry => do
      let s ← s.exTry
      .ok (.done,s)
  | .exThrow text => do
      let s ← s.exThrow text
      .ok (.done,s)
  | .exCatch => .ok (.caught s.exCatch,s)
  | .exEnd => do
      let (text,s) ← s.exEnd
      .ok (.ended text,s)

def run (s : ErrorStack) : List Op → Exec (List Reply × ErrorStack)
  | [] => .ok ([],s)
  | op :: ops => do
      let (reply,s) ← s.call op
      let (replies,s) ← s.run ops
      .ok (reply :: replies,s)

end ErrorStack

/-- The messages thrown since the context was last opened, latest first; `none` when it is
closed. -/
abbrev Context := Option (List Bytes)

namespace Context

def after (c : Context) : ErrorStack.Op → Context
  | .exTry => some []
  | .exThrow text => some (formatted text :: c.getD [])
  | .exCatch => c
  | .exEnd => none

def used (messages : List Bytes) : Nat := (messages.map fun m => m.length+1).sum

/-- The messages that fitted in the space that was left when they were thrown. -/
def kept : List Bytes → List Bytes
  | [] => []
  | m :: ms => if m ≠ [] ∧ used (kept ms)+(m.length+1) ≤ msgSize-1 then m :: kept ms else kept ms

def shown (messages : List Bytes) : Bytes := messages.flatMap fun m => 10 :: m

def reply (c : Context) : ErrorStack.Op → ErrorStack.Reply
  | .exTry => .done
  | .exThrow _ => .done
  | .exCatch => .caught (if ∃ m ∈ c.getD [], m ≠ [] then 1 else 0)
  | .exEnd => .ended (shown (kept (c.getD [])))

def replies (c : Context) : List ErrorStack.Op → List ErrorStack.Reply
  | [] => []
  | op :: ops => c.reply op :: (c.after op).replies ops

/-- The text takes all the space that is left, and its newline does not fit any more. -/
def Fills (c : Context) (text : Bytes) : Prop :=
  formatted text ≠ [] ∧ used (kept (c.getD []))+(formatted text).length = msgSize-1

@[simp] theorem used_nil : used [] = 0 := by
  simp [used]

@[simp] theorem used_cons (m : Bytes) (ms : List Bytes) :
    used (m :: ms) = m.length+1+used ms := by
  simp [used]

@[simp] theorem shown_cons (m : Bytes) (ms : List Bytes) :
    shown (m :: ms) = 10 :: (m ++ shown ms) := by
  simp [shown]

theorem used_kept_le (ms : List Bytes) : used (kept ms) ≤ msgSize-1 := by
  induction ms with
  | nil => exact Nat.zero_le _
  | cons m ms ih =>
    rw [kept]
    split
    · rename_i hfits
      rw [used_cons]
      omega
    · exact ih

theorem used_kept_pos {ms : List Bytes} (hshort : ∀ m ∈ ms, m.length ≤ 511) :
    0 < used (kept ms) ↔ ∃ m ∈ ms, m ≠ [] := by
  induction ms with
  | nil => simp [kept]
  | cons m ms ih =>
    have ih := ih fun m' hm' => hshort m' (List.mem_cons_of_mem m hm')
    have hm := hshort m List.mem_cons_self
    have hcons : (∃ m' ∈ m :: ms, m' ≠ []) ↔ m ≠ [] ∨ ∃ m' ∈ ms, m' ≠ [] := by simp
    rw [kept,hcons,← ih]
    split
    · rename_i hfits
      rw [used_cons]
      exact iff_of_true (by omega) (.inl hfits.1)
    · rename_i hnot
      constructor
      · exact .inr
      · rintro (hne | h)
        · have hfull : ¬ used (kept ms)+(m.length+1) ≤ msgSize-1 := fun hle => hnot ⟨hne,hle⟩
          have hsize : msgSize = 4096 := rfl
          omega
        · exact h

end Context

theorem length_formatted (text : Bytes) : (formatted text).length ≤ 511 := by
  have hprefix : formatted text <+: text.take 511 := List.takeWhile_prefix _
  exact hprefix.length_le.trans (List.length_take_le 511 text)

theorem zero_notMem_formatted (text : Bytes) : (0 : UInt8) ∉ formatted text := by
  intro h
  simpa using List.mem_takeWhile_imp h

theorem writeAt_inside (m bs : Bytes) {i : Int} (hlow : 0 ≤ i) (hhigh : i+bs.length ≤ m.length) :
    ∃ m', writeAt m i bs = .ok m' ∧ m'.length = m.length ∧
      m'.drop i.toNat = bs ++ m.drop (i.toNat+bs.length) := by
  have hroom : i.toNat+bs.length ≤ m.length := by omega
  refine ⟨m.take i.toNat ++ bs ++ m.drop (i.toNat+bs.length),?_,?_,?_⟩
  · rw [writeAt,if_neg (by omega),writeBytes,if_pos hroom]
  · simp only [List.length_append,List.length_take,List.length_drop]
    omega
  · rw [List.append_assoc,List.drop_append_of_le_length (by simp; omega)]
    simp

theorem writeAt_outside {m bs : Bytes} {i : Int} (hlow : i < 0) :
    writeAt m i bs = .fault .outOfBounds := if_pos hlow

namespace ErrorStack
open Context

/-- The messages that fitted stand at the end of the array, latest first, with a newline in
front of each. -/
structure Refines (s : ErrorStack) (c : Context) : Prop where
  length : s.msg.length = msgSize
  flag : s.errFlag = c.isSome
  low : 0 ≤ s.stackTop
  high : s.stackTop ≤ msgSize-1
  short : ∀ m ∈ c.getD [], m.length ≤ 511 ∧ (0 : UInt8) ∉ m
  top : ∀ ms, c = some ms → s.stackTop = msgSize-1-used (kept ms)
  content : ∀ ms, c = some ms → s.msg.drop s.stackTop.toNat = shown (kept ms) ++ [0]

theorem refines_init : init.Refines none where
  length := List.length_replicate
  flag := rfl
  low := by decide
  high := by decide
  short := by simp
  top := by simp
  content := by simp

variable {s s' : ErrorStack} {c : Context}

theorem Refines.exTry (h : s.Refines c) : ∃ s', s.exTry = .ok s' ∧ s'.Refines (some []) := by
  have hsize : (msgSize : Int) = 4096 := rfl
  have hlength := h.length
  obtain ⟨msg,hwrite,hlength',hdrop⟩ := writeAt_inside s.msg [0]
    (i := (msgSize : Int)-1) (by omega) (by simp; omega)
  refine ⟨⟨msg,true,msgSize-1⟩,by rw [ErrorStack.exTry,hwrite]; rfl,?_⟩
  refine ⟨hlength'.trans hlength,rfl,by dsimp only; omega,by dsimp only; omega,by simp,?_,?_⟩
  · rintro ms ⟨⟩
    simp [kept]
  · rintro ms ⟨⟩
    have hend : s.msg.drop (((msgSize : Int)-1).toNat+[(0 : UInt8)].length) = [] :=
      List.drop_of_length_le (by simp; omega)
    rw [hdrop,hend]
    rfl

theorem Refines.short_cons (h : s.Refines c) (text : Bytes) :
    ∀ m ∈ formatted text :: c.getD [], m.length ≤ 511 ∧ (0 : UInt8) ∉ m := by
  intro m hm
  rcases List.mem_cons.mp hm with rfl | hm
  · exact ⟨length_formatted text,zero_notMem_formatted text⟩
  · exact h.short m hm

section Throw
variable {ms : List Bytes} {text : Bytes}

theorem Refines.dropped (h : s.Refines (some ms)) (hkept : kept (formatted text :: ms) = kept ms) :
    s.Refines (some (formatted text :: ms)) where
  length := h.length
  flag := h.flag
  low := h.low
  high := h.high
  short := h.short_cons text
  top := by
    rintro _ ⟨⟩
    rw [hkept]
    exact h.top ms rfl
  content := by
    rintro _ ⟨⟩
    rw [hkept]
    exact h.content ms rfl

theorem Refines.exThrow_dropped (h : s.Refines (some ms))
    (hdrop : formatted text = [] ∨ s.stackTop < (formatted text).length) :
    s.exThrow text = .ok s ∧ s.Refines (some (formatted text :: ms)) := by
  have hsize : (msgSize : Int) = 4096 := rfl
  have hflag : s.errFlag = true := h.flag
  rw [ErrorStack.exThrow,hflag,if_pos rfl,ok_bind]
  dsimp only
  rcases hdrop with hempty | hfull
  · exact ⟨by simp [hempty],h.dropped (by simp [kept,hempty])⟩
  · have hlow := h.low
    have htop := h.top ms rfl
    rw [if_neg (by omega),if_pos (by omega)]
    refine ⟨rfl,h.dropped ?_⟩
    rw [kept,if_neg fun hfits => by omega]

theorem Refines.exThrow_written (h : s.Refines (some ms)) (hne : formatted text ≠ [])
    (hfits : (formatted text).length ≤ s.stackTop) :
    ∃ msg, msg.length = msgSize ∧
      msg.drop (s.stackTop-(formatted text).length).toNat =
        formatted text ++ (shown (kept ms) ++ [0]) ∧
      s.exThrow text = (writeAt msg (s.stackTop-(formatted text).length-1) [10] >>= fun msg =>
        .ok { s with msg, stackTop := s.stackTop-(formatted text).length-1 }) := by
  have hlength := h.length
  have hhigh := h.high
  have hflag : s.errFlag = true := h.flag
  have hpos := List.length_pos_iff.mpr hne
  obtain ⟨msg,hwrite,hlength',hdrop⟩ := writeAt_inside s.msg (formatted text)
    (i := s.stackTop-(formatted text).length) (by omega) (by omega)
  refine ⟨msg,hlength'.trans hlength,?_,?_⟩
  · have hbehind : (s.stackTop-(formatted text).length).toNat+(formatted text).length =
        s.stackTop.toNat := by omega
    rw [hdrop,hbehind,h.content ms rfl]
  · rw [ErrorStack.exThrow,hflag,if_pos rfl,ok_bind]
    dsimp only
    rw [if_neg (by omega),if_neg (by omega),hwrite,ok_bind,hflag]

theorem Refines.exThrow_kept (h : s.Refines (some ms)) (hne : formatted text ≠ [])
    (hfits : (formatted text).length < s.stackTop) :
    ∃ s', s.exThrow text = .ok s' ∧ s'.Refines (some (formatted text :: ms)) := by
  have hsize : (msgSize : Int) = 4096 := rfl
  have hlow := h.low
  have hhigh := h.high
  have htop := h.top ms rfl
  obtain ⟨msg,hlength,hdrop,hthrow⟩ := h.exThrow_written hne (by omega)
  obtain ⟨msg',hwrite,hlength',hdrop'⟩ := writeAt_inside msg [10]
    (i := s.stackTop-(formatted text).length-1) (by omega) (by simp; omega)
  rw [hwrite,ok_bind] at hthrow
  have hkept : kept (formatted text :: ms) = formatted text :: kept ms :=
    if_pos ⟨hne,by omega⟩
  have hbehind : (s.stackTop-(formatted text).length-1).toNat+[(10 : UInt8)].length =
      (s.stackTop-(formatted text).length).toNat := by
    simp only [List.length_singleton]
    omega
  refine ⟨_,hthrow,hlength'.trans hlength,h.flag,?_,?_,h.short_cons text,?_,?_⟩
  · dsimp only
    omega
  · dsimp only
    omega
  · rintro _ ⟨⟩
    rw [hkept,used_cons]
    dsimp only
    omega
  · rintro _ ⟨⟩
    rw [hdrop',hbehind,hdrop,hkept]
    simp

theorem Refines.exThrow_fills (h : s.Refines (some ms)) (hfills : Fills (some ms) text) :
    s.exThrow text = .fault .outOfBounds := by
  have htop := h.top ms rfl
  have hused := hfills.2
  have hsize : msgSize = 4096 := rfl
  simp only [Option.getD_some] at hused
  obtain ⟨msg,_,_,hthrow⟩ := h.exThrow_written hfills.1 (by omega)
  rw [hthrow,writeAt_outside (by omega),fault_bind]

end Throw

theorem Refines.exThrow (h : s.Refines c) (text : Bytes) :
    (Fills c text → s.exThrow text = .fault .outOfBounds) ∧
    (¬ Fills c text →
      ∃ s', s.exThrow text = .ok s' ∧ s'.Refines (c.after (.exThrow text))) := by
  have hopen : ∃ s₁ : ErrorStack,
      s.exThrow text = s₁.exThrow text ∧ s₁.Refines (some (c.getD [])) := by
    cases c with
    | some ms => exact ⟨s,rfl,h⟩
    | none =>
      obtain ⟨s₁,htry,h₁⟩ := h.exTry
      have hflag : s.errFlag = false := h.flag
      have hflag₁ : s₁.errFlag = true := h₁.flag
      refine ⟨s₁,?_,h₁⟩
      rw [ErrorStack.exThrow,ErrorStack.exThrow,hflag,hflag₁,htry]
      rfl
  obtain ⟨s₁,hthrow,h₁⟩ := hopen
  rw [hthrow]
  refine ⟨h₁.exThrow_fills,fun hnot => ?_⟩
  by_cases hdrop : formatted text = [] ∨ s₁.stackTop < (formatted text).length
  · exact ⟨s₁,h₁.exThrow_dropped hdrop⟩
  · have htop := h₁.top _ rfl
    have hsize : msgSize = 4096 := rfl
    refine h₁.exThrow_kept (fun he => hdrop (.inl he)) ?_
    have hne : used (kept (c.getD []))+(formatted text).length ≠ msgSize-1 :=
      fun he => hnot ⟨fun hempty => hdrop (.inl hempty),he⟩
    have hle := used_kept_le (c.getD [])
    omega

theorem Refines.exCatch (h : s.Refines c) :
    s.exCatch = if ∃ m ∈ c.getD [], m ≠ [] then 1 else 0 := by
  have hsize : msgSize = 4096 := rfl
  have hpos := used_kept_pos fun m hm => (h.short m hm).1
  unfold ErrorStack.exCatch
  refine if_congr ?_ rfl rfl
  rw [← hpos,h.flag]
  cases c with
  | none => simp [kept]
  | some ms =>
    have htop := h.top ms rfl
    have hle := used_kept_le ms
    simp only [Option.isSome_some,true_and,Option.getD_some]
    omega

theorem zero_notMem_shown {ms : List Bytes} (h : ∀ m ∈ ms, (0 : UInt8) ∉ m) :
    (0 : UInt8) ∉ shown (kept ms) := by
  induction ms with
  | nil => simp [kept,shown]
  | cons m ms ih =>
    have ih := ih fun m' hm' => h m' (List.mem_cons_of_mem m hm')
    have hm := h m List.mem_cons_self
    rw [kept]
    split
    · simp [hm,ih]
    · exact ih

theorem Refines.exEnd (h : s.Refines c) :
    ∃ s', s.exEnd = .ok (shown (kept (c.getD [])),s') ∧ s'.Refines none := by
  have hclosed : Refines { s with errFlag := false } none :=
    ⟨h.length,rfl,h.low,h.high,by simp,by simp,by simp⟩
  have hflag := h.flag
  cases c with
  | none => exact ⟨s,by rw [ErrorStack.exEnd,hflag]; rfl,h⟩
  | some ms =>
    have hclean := zero_notMem_shown fun m hm => (h.short m hm).2
    have hlow := h.low
    refine ⟨_,?_,hclosed⟩
    rw [ErrorStack.exEnd,hflag,Option.isSome_some,if_pos rfl]
    dsimp only
    rw [if_neg (by omega),readCString,h.content ms rfl,if_pos (by simp),ok_bind,
      List.takeWhile_append_of_pos fun b hb => by
        have hne : b ≠ 0 := fun hb' => hclean (hb' ▸ hb)
        simpa using hne]
    simp

/-- One call answers as the context does, unless the text of a message fills it. -/
theorem Refines.call (h : s.Refines c) (op : Op) :
    (∀ text, op = .exThrow text → Fills c text → s.call op = .fault .outOfBounds) ∧
    ((∀ text, op = .exThrow text → ¬ Fills c text) →
      ∃ s', s.call op = .ok (c.reply op,s') ∧ s'.Refines (c.after op)) := by
  cases op with
  | exTry =>
    obtain ⟨s',htry,h'⟩ := h.exTry
    exact ⟨by simp,fun _ => ⟨s',by rw [ErrorStack.call,htry]; rfl,h'⟩⟩
  | exThrow text =>
    obtain ⟨hfills,hkeeps⟩ := h.exThrow text
    constructor
    · rintro _ ⟨⟩ hf
      rw [ErrorStack.call,hfills hf,fault_bind]
    · intro hnot
      obtain ⟨s',hthrow,h'⟩ := hkeeps (hnot text rfl)
      exact ⟨s',by rw [ErrorStack.call,hthrow]; rfl,h'⟩
  | exCatch => exact ⟨by simp,fun _ => ⟨s,by rw [ErrorStack.call,h.exCatch]; rfl,h⟩⟩
  | exEnd =>
    obtain ⟨s',hend,h'⟩ := h.exEnd
    exact ⟨by simp,fun _ => ⟨s',by rw [ErrorStack.call,hend]; rfl,h'⟩⟩

/-- No message of the calls has a text that takes all the space that is left. -/
def Spares (c : Context) (ops : List Op) : Prop :=
  ∀ pre text, pre ++ [.exThrow text] <+: ops → ¬ Fills (pre.foldl Context.after c) text

theorem spares_cons {op : Op} {ops : List Op} : Spares c (op :: ops) ↔
    (∀ text, op = .exThrow text → ¬ Fills c text) ∧ Spares (c.after op) ops := by
  constructor
  · intro h
    refine ⟨fun text hop => h [] text ?_,fun pre text hpre => h (op :: pre) text ?_⟩
    · rw [hop]
      exact ⟨ops,rfl⟩
    · exact List.cons_prefix_cons.mpr ⟨rfl,hpre⟩
  · rintro ⟨hop,hops⟩ pre text hpre
    cases pre with
    | nil => exact hop text (List.cons_prefix_cons.mp hpre).1.symm
    | cons op' pre =>
      obtain ⟨rfl,hpre'⟩ := List.cons_prefix_cons.mp hpre
      exact hops pre text hpre'

theorem Refines.run {ops : List Op} (h : s.Refines c) (hspare : Spares c ops) :
    ∃ s', s.run ops = .ok (c.replies ops,s') ∧ s'.Refines (ops.foldl Context.after c) := by
  induction ops generalizing s c with
  | nil => exact ⟨s,rfl,h⟩
  | cons op ops ih =>
    obtain ⟨hop,hops⟩ := spares_cons.mp hspare
    obtain ⟨s₁,hcall,h₁⟩ := (h.call op).2 hop
    obtain ⟨s',hrun,h'⟩ := ih h₁ hops
    refine ⟨s',?_,h'⟩
    rw [ErrorStack.run,hcall,ok_bind]
    dsimp only
    rw [hrun]
    rfl

theorem Refines.spares_of_run {ops : List Op} (h : s.Refines c) {r : List Reply × ErrorStack}
    (hrun : s.run ops = .ok r) : Spares c ops := by
  induction ops generalizing s c r with
  | nil =>
    intro pre text hpre
    simp at hpre
  | cons op ops ih =>
    obtain ⟨⟨reply,s₁⟩,hcall,hrest⟩ := bind_eq_ok.mp hrun
    obtain ⟨hfault,hkeeps⟩ := h.call op
    have hop : ∀ text, op = .exThrow text → ¬ Fills c text := by
      intro text hop hfills
      rw [hfault text hop hfills] at hcall
      cases hcall
    obtain ⟨s₁',hcall',h₁⟩ := hkeeps hop
    rw [hcall] at hcall'
    obtain ⟨rfl,rfl⟩ := Prod.mk.inj (Exec.ok.inj hcall')
    obtain ⟨r',hrest,_⟩ := bind_eq_ok.mp hrest
    exact spares_cons.mpr ⟨hop,ih h₁ hrest⟩

/-- From the start of the thread on, every call returns what the context answers, writes inside
the array and leaves the top of the stack in it. -/
def LogsFaithfully (ops : List Op) : Prop :=
  ∀ pre, pre <+: ops → ∃ s', init.run pre = .ok (Context.replies none pre,s') ∧
    0 ≤ s'.stackTop ∧ s'.stackTop ≤ msgSize-1

/-- The log is faithful exactly if no message takes just the space that is left. -/
theorem logsFaithfully_iff (ops : List Op) : LogsFaithfully ops ↔ Spares none ops := by
  constructor
  · intro h
    obtain ⟨s',hrun,_⟩ := h ops (List.prefix_refl ops)
    exact refines_init.spares_of_run hrun
  · intro hspare pre hpre
    have hspare' : Spares none pre := fun pre' text hpre' => hspare pre' text (hpre'.trans hpre)
    obtain ⟨s',hrun,h'⟩ := refines_init.run hspare'
    exact ⟨s',hrun,h'.low,h'.high⟩

theorem fills_seven {text : Bytes} (h : (formatted text).length = 511) :
    Fills ((.exTry :: List.replicate 7 (.exThrow text)).foldl Context.after none) text := by
  have hne : formatted text ≠ [] := List.ne_nil_of_length_pos (by omega)
  refine ⟨hne,?_⟩
  simp [List.replicate_succ,Context.after,kept,hne,h,msgSize]

theorem not_logsFaithfully_eight : ∃ text : Bytes, text.length = 511 ∧
    ¬ LogsFaithfully (.exTry :: List.replicate 8 (.exThrow text)) := by
  have hlength : (List.replicate 511 (97 : UInt8)).length = 511 := List.length_replicate
  refine ⟨List.replicate 511 97,hlength,fun h => ?_⟩
  obtain ⟨s',hrun,_⟩ := h _ (List.prefix_refl _)
  have hformatted : formatted (List.replicate 511 97) = List.replicate 511 97 := by
    rw [formatted,List.take_of_length_le hlength.le,List.takeWhile_replicate]
    rfl
  exact refines_init.spares_of_run hrun _ _ (List.prefix_refl _)
    (fills_seven (by rw [hformatted]; exact hlength))

end ErrorStack
end DnsRelay
