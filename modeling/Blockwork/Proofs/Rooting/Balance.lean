import Blockwork.Proofs.Lowering.Programs
import Blockwork.Proofs.Rooting.Turns
import Blockwork.Proofs.Runs

/-! # Balanced roots
A compiled program is in order when it is loaded, and stays so whatever its host does between steps. -/

namespace Blockwork

open Memory Machine Activation

/-- A call in a run: at step `n` the running function calls another, and at step `k` as few functions
wait again as before. -/
structure Machine.Call (p : ProgramCode) (h : Host) (m : Machine) (n k : Nat) (d : Reg)
    (rest : List Instr) (before after : Machine) : Prop where
  starts : ∃ m', advance p h m n = .running m' ∧ before = h.visit n m'
  code : ∃ fn args, before.active.code = .call d fn args :: rest
  lt : n < k
  inside : ∀ j m', n < j → j < k → advance p h m j = .running m' → before.waiting.length < m'.waiting.length
  ends : advance p h m k = .running after
  returned : after.waiting.length = before.waiting.length

/-- What a call comes to: the caller goes on behind it with the result in a register, and with its roots
as they were but for temporaries made for the result. -/
structure Machine.Answered (d : Reg) (rest : List Instr) (before after : Machine) (v : Value)
    (new : List Pointer) : Prop where
  active : after.active = set { before.active with code := rest } d v
  waiting : after.waiting = before.waiting
  frames : after.session.memory.roots.frames = before.session.memory.roots.frames
  marks : after.session.memory.roots.marks = before.session.memory.roots.marks
  named : after.session.memory.roots.named = before.session.memory.roots.named
  temps : after.session.memory.roots.temps = before.session.memory.roots.temps ++ new.toArray
  made : after.session.MadeFor v new

namespace Flow

variable {σ : Site} {s s' : Session} {a : Activation} {c : Rules} {cells : List Bool} {p : ProgramCode}
  {h : Host} {m : Machine} {es : List Roots}

theorem Site.Before.congr (hm : s'.memory = s.memory) (h : σ.Before b fs f s a) : σ.Before b fs f s' a :=
  ⟨hm ▸ h.frames, h.framed, h.top, h.layered, h.fit, fun hc => hm ▸ h.holds hc⟩

theorem Site.Keeps.congr {get : Reg → Value} (hm : s'.memory = s.memory) (h : σ.Keeps s get) : σ.Keeps s' get :=
  ⟨hm ▸ h.toRests, hm ▸ h.params⟩

theorem madeFor_visited {new : List Pointer} (hv : s.Visited s') (h : s.MadeFor v new) : s'.MadeFor v new := by
  cases h with
  | none hp => exact .none hp
  | itself => exact .itself
  | content hq =>
    refine .content ?_
    simp only [Session.boxed, hv.memory]
    exact hq
  | refused hnothing habort =>
    refine .refused hnothing ?_
    rcases hv.abort with hsame | ⟨hnone, -⟩
    · rw [hsame]
      exact habort
    · rw [hnone] at habort
      cases habort

theorem Site.Leaves.visited {get : Reg → Value} (hv : s.Visited s') (h : σ.Leaves st s get) : σ.Leaves st s' get := by
  have hm := hv.memory
  refine ⟨?_, hm ▸ h.rests, hm ▸ h.carries, hm ▸ h.guarded⟩
  have hleft := h.left
  cases st with
  | loose | handed => exact (congrArg Memory.roots hm).trans hleft
  | made r => exact hleft.imp (congrArg Memory.roots hm).trans (congrArg Memory.roots hm).trans
  | boxed r =>
    obtain ⟨new, hroots, hmade⟩ := hleft
    exact ⟨new, (congrArg Memory.roots hm).trans hroots, madeFor_visited hv hmade⟩

theorem Site.Doing.visited (hv : s.Visited s') (h : σ.Doing a s) : σ.Doing a s' := by
  have hm := hv.memory
  cases h with
  | entering hfn hcode hkonts hroots hfit hkeeps =>
    refine .entering hfn hcode hkonts (hm ▸ hroots) hfit fun hc => ?_
    exact ⟨(hkeeps hc).1.congr hm, hm ▸ (hkeeps hc).2⟩
  | pending hd hcode hkonts hroots hfit hbody he htail hkeeps =>
    refine .pending hd hcode hkonts (hm ▸ hroots) hfit hbody he htail fun hc => ?_
    exact ⟨(hkeeps hc).1.congr hm, hm ▸ (hkeeps hc).2⟩
  | running hruns => exact .running ⟨hruns.toBefore.congr hm, hruns.code, hruns.stack⟩
  | closing hd hcode hkonts hroots hfit htail hkeeps =>
    refine .closing hd hcode hkonts (hm ▸ hroots) hfit htail fun hc => ?_
    exact ⟨(hkeeps hc).1.congr hm, hm ▸ (hkeeps hc).2⟩
  | leaving hcode hstack hfit hleaves => exact .leaving hcode hstack hfit (hleaves.visited hv)

theorem InOrder.visit (n : Nat) (hm : InOrder c cells es m) : InOrder c cells es (h.visit n m) := by
  cases hm with
  | @intro σ s a ws es k hrules hcells hdoing hwaits habort =>
    have hv := h.polite n s
    refine .intro hrules hcells (hdoing.visited hv) (hv.memory ▸ hwaits) ?_
    rcases hv.abort with hsame | ⟨-, text, hnew⟩
    · exact fun hunder => habort (hsame.symm.trans hunder)
    · exact fun hunder => nomatch hnew.symm.trans hunder

theorem orderly_fresh (hs : s.Fresh) : Orderly cells s.memory := by
  obtain ⟨low, limit, hnew⟩ := hs.memory
  rw [hnew]
  exact ⟨.new low limit, fun _ => Value.direct_of_refs rfl, nofun, fun _ _ => rfl⟩

theorem guarded_fresh (hs : s.Fresh) : Guarded cells s.memory none := by
  obtain ⟨low, limit, hnew⟩ := hs.memory
  rw [hnew]
  exact fun _ _ => Or.inl rfl

theorem InOrder.load (hp : ProgramOk c cells p) (hs : s.Fresh) : InOrder c cells [{}] (load p s) := by
  let σ : Site := ⟨c.of true 0, cells, {}, cells.length, p.main.slots⟩
  obtain ⟨low, limit, hnew⟩ := hs.memory
  have hroots : s.memory.roots = {} := by rw [hnew]; rfl
  have hslots : s.memory.slots.size = 0 := by rw [hnew]; rfl
  refine .intro (σ := σ) (n := 0) rfl rfl (.entering hp.main rfl rfl hroots ?_ fun _ => ?_) .main ?_
  · exact ⟨hp.size, size_start _ _ _ _, rfl, rfl⟩
  · refine ⟨⟨⟨(orderly_fresh hs).addSlots _, ⟨Nat.le_refl _, fun i hi => absurd hi (Array.not_mem_empty i), fun _ => rfl⟩, ?_⟩,
      fun x hx => absurd hx (Nat.not_lt_zero x)⟩,
      (guarded_fresh hs).addSlots _⟩
    simp only [σ, addSlots, Array.size_append, Array.size_replicate, hslots, hp.size]
    omega
  · show s.abort ≠ _
    rw [hs.abort]
    intro hunder
    cases hunder

theorem ProgramOk.inOrder (hp : ProgramOk c cells p) (hs : s.Fresh)
    (hn : advance p h (load p s) n = .running m) : ∃ entry es, InOrder c cells (entry :: es) m := by
  refine advance_invariant (P := fun m => ∃ entry es, InOrder c cells (entry :: es) m)
    ⟨_, _, InOrder.load hp hs⟩ ?_ hn
  rintro n m m' ⟨entry, es, horder⟩ hstep
  have hturns := (horder.visit (h := h) n).turns hp
  rw [hstep] at hturns
  cases hturns with
  | stays _ _ hnext | calls _ _ hnext => exact ⟨_, _, hnext⟩
  | returns _ _ _ _ hnext =>
    cases hnext with
    | intro hrules hcells hdoing hwaits habort => exact ⟨_, _, .intro hrules hcells hdoing hwaits habort⟩

/-! ### Calls -/

theorem InOrder.calls (hp : ProgramOk c cells p) (hm : InOrder c cells (entry :: es) m)
    (hcode : m.active.code = .call d fn args :: rest) :
    ∃ m', step p m = .running m' ∧ m'.waiting = { m.active with code := rest } :: m.waiting ∧
      m'.active.dst = d ∧ InOrder c cells (m.session.memory.roots :: entry :: es) m' := by
  obtain ⟨s, ⟨code, konts, regs, base, dst⟩, ws⟩ := m
  cases hcode
  refine ⟨_, rfl, rfl, rfl, ?_⟩
  cases hm.turns hp with
  | stays hwaiting _ _ => exact absurd (congrArg List.length hwaiting) (Nat.succ_ne_self _)
  | calls _ _ hnext => exact hnext
  | returns hwaiting _ _ _ _ =>
    have hlength : ws.length = ws.length + 1 + 1 := congrArg List.length hwaiting
    omega

/-- A machine inside a call of `caller`, which gets its result in `d` and made the call with roots `r`:
`above` are the functions that were called since and wait. -/
structure Within (c : Rules) (cells : List Bool) (caller : Activation) (ws : List Activation) (d : Reg)
    (r : Roots) (es : List Roots) (m : Machine) (above : List Activation) (more : List Roots) : Prop where
  waiting : m.waiting = above ++ caller :: ws
  length : more.length = above.length
  order : InOrder c cells (more ++ r :: es) m
  dst : (above.getLastD m.active).dst = d

theorem dst_getLastD {as : List Activation} (h : a'.dst = a.dst) : (as.getLastD a').dst = (as.getLastD a).dst := by
  cases as with
  | nil => exact h
  | cons _ _ => rfl

theorem Within.step {caller : Activation} (hp : ProgramOk c cells p)
    (hm : Within c cells caller ws d r es m above more) (hstep : step p (h.visit n m) = .running m') :
    (∃ above more, Within c cells caller ws d r es m' above more) ∨
      ∃ v new, m'.waiting = ws ∧ m'.active = caller.set d v ∧
        m'.session.memory.roots = r.extend new ∧ m'.session.MadeFor v new := by
  have horder := hm.order.visit (h := h) n
  have hwaiting : (h.visit n m).waiting = above ++ caller :: ws := hm.waiting
  cases more with
  | nil =>
    obtain rfl := List.length_eq_zero_iff.mp hm.length.symm
    have hturns := horder.turns hp
    rw [hstep] at hturns
    cases hturns with
    | stays hsame hdst hnext =>
      exact Or.inl ⟨[], [], hsame.trans hwaiting, rfl, hnext, hdst.trans hm.dst⟩
    | @calls _ a hmore hdst hnext =>
      refine Or.inl ⟨[a], [_], ?_, rfl, hnext, hdst.trans hm.dst⟩
      rw [hmore, hwaiting]
      rfl
    | @returns _ _ v new hless hactive hroots hmade _ =>
      obtain ⟨rfl, rfl⟩ := List.cons.inj (hwaiting.symm.trans hless)
      refine Or.inr ⟨v, new, rfl, ?_, hroots, hmade⟩
      rw [hactive]
      exact congrArg (fun x => set caller x v) hm.dst
  | cons entry more =>
    obtain ⟨a, above, rfl⟩ := List.exists_cons_of_length_eq_add_one hm.length.symm
    have hturns := horder.turns hp
    rw [hstep] at hturns
    refine Or.inl ?_
    cases hturns with
    | stays hsame hdst hnext =>
      exact ⟨a :: above, entry :: more, hsame.trans hwaiting, hm.length, hnext, hm.dst⟩
    | @calls _ a' hmore hdst hnext =>
      refine ⟨a' :: a :: above, _ :: entry :: more, ?_, congrArg Nat.succ hm.length, hnext, hm.dst⟩
      rw [hmore, hwaiting]
      rfl
    | @returns _ _ v new hless hactive _ _ hnext =>
      obtain ⟨rfl, hrest⟩ := List.cons.inj (hwaiting.symm.trans hless)
      refine ⟨above, more, hrest.symm, Nat.succ.inj hm.length, hnext, ?_⟩
      rw [← hm.dst, List.getLastD_cons]
      refine dst_getLastD ?_
      rw [hactive]
      exact dst_set _ _ _

theorem ProgramOk.answered {n k : Nat} {d : Reg} {rest : List Instr} {before after : Machine}
    (hp : ProgramOk c cells p) (hs : s.Fresh) (hcall : Call p h (load p s) n k d rest before after) :
    ∃ v new, Answered d rest before after v new := by
  obtain ⟨m, hm, rfl⟩ := hcall.starts
  obtain ⟨fn, args, hcode⟩ := hcall.code
  obtain ⟨entry, es, horder⟩ := hp.inOrder hs hm
  obtain ⟨m₁, hstep, hwaiting, hdst, horder₁⟩ := (horder.visit (h := h) n).calls hp hcode
  have hfirst : advance p h (load p s) (n + 1) = .running m₁ := (advance_succ hm).trans hstep
  -- up to its return the run is inside the call
  have hwithin : ∀ i, n + i + 1 < k → ∀ m', advance p h (load p s) (n + i + 1) = .running m' →
      ∃ above more, Within c cells { (h.visit n m).active with code := rest } m.waiting d
        (h.visit n m).session.memory.roots (entry :: es) m' above more := by
    intro i
    induction i with
    | zero =>
      intro _ m' hm'
      obtain rfl := Progress.running.inj (hfirst.symm.trans hm')
      exact ⟨[], [], hwaiting, rfl, horder₁, hdst⟩
    | succ i ih =>
      intro hlt m' hm'
      obtain ⟨mi, hmi, hnext⟩ := running_succ hm'
      obtain ⟨above, more, hinside⟩ := ih (by omega) mi hmi
      rcases hinside.step hp hnext with hinside | ⟨v, new, hback, -⟩
      · exact hinside
      · have hdeep := hcall.inside _ m' (by omega) hlt hm'
        rw [hback] at hdeep
        exact absurd hdeep (Nat.lt_irrefl _)
  have hback : ∃ v new, after.waiting = m.waiting ∧
      after.active = set { (h.visit n m).active with code := rest } d v ∧
      after.session.memory.roots = (h.visit n m).session.memory.roots.extend new ∧
      after.session.MadeFor v new := by
    obtain ⟨i, hi⟩ := Nat.exists_eq_add_of_lt hcall.lt
    have hends := hcall.ends
    have hreturned := hcall.returned
    cases i with
    | zero =>
      obtain rfl : k = n + 1 := hi
      obtain rfl := Progress.running.inj (hfirst.symm.trans hends)
      rw [hwaiting] at hreturned
      exact absurd hreturned (Nat.succ_ne_self _)
    | succ i =>
      rw [hi] at hends
      obtain ⟨mi, hmi, hnext⟩ := running_succ hends
      obtain ⟨above, more, hinside⟩ := hwithin i (by omega) mi hmi
      rcases hinside.step hp hnext with ⟨above, more, hinside⟩ | hanswer
      · rw [hinside.waiting, List.length_append] at hreturned
        have hlong : above.length + (m.waiting.length + 1) = m.waiting.length := hreturned
        omega
      · exact hanswer
  obtain ⟨v, new, hback, hactive, hroots, hmade⟩ := hback
  exact ⟨v, new, hactive, hback, by rw [hroots]; rfl, by rw [hroots]; rfl, by rw [hroots]; rfl,
    by rw [hroots]; rfl, hmade⟩

theorem ProgramOk.finished (hp : ProgramOk c cells p) (hs : s.Fresh) (hn : advance p h (load p s) n = .finished t) :
    t.abort ≠ some (.roots .underflow) ∧ t.memory.roots.depth = 0 ∧ t.memory.roots.savedDepth = 0 := by
  obtain ⟨k, m, -, hm, hstep⟩ := finishing_step hn
  obtain ⟨entry, es, horder⟩ := hp.inOrder hs hm
  have hturns := (horder.visit (h := h) k).turns hp
  rw [hstep] at hturns
  cases hturns with
  | finishes _ hroots habort =>
    refine ⟨habort, ?_, ?_⟩
    · rw [hroots]
      rfl
    · rw [hroots]
      rfl

end Flow

namespace Program

/-- In every run of a compiled program no frame is closed that was not opened, the main function leaves
neither frames nor marks behind, and every call leaves the roots as it found them, with temporaries added
for its result only. -/
theorem roots_balanced {p : Program} {keep : Bool} {code : ProgramCode} {s : Session} (hheads : p.BareHeads)
    (hcode : (p.compile keep).result = .ok code) (hs : s.Fresh) (h : Host) :
    (∀ n m, Machine.advance code h (Machine.load code s) n = .running m →
      m.session.abort ≠ some (.roots .underflow)) ∧
    (∀ n t, Machine.advance code h (Machine.load code s) n = .finished t →
      t.abort ≠ some (.roots .underflow) ∧ t.memory.roots.depth = 0 ∧ t.memory.roots.savedDepth = 0) ∧
    ∀ n k d rest before after, Machine.Call code h (Machine.load code s) n k d rest before after →
      ∃ v new, Machine.Answered d rest before after v new := by
  obtain ⟨functions, cells, hok⟩ := Flow.compile_programOk false false false hheads nofun nofun nofun hcode
  refine ⟨fun n m hm => ?_, fun n t ht => hok.finished hs ht, fun _ _ _ _ _ _ hcall => hok.answered hs hcall⟩
  obtain ⟨entry, es, horder⟩ := hok.inOrder hs hm
  cases horder with
  | intro _ _ _ _ habort => exact habort

/-- Prints the numbers from three down to one: its block calls itself with one less. -/
def countdown : Program where
  chains :=
    [⟨[.mk "on_start" [], .mk "count" [.text "3"]]⟩, ⟨[.definition "count",
       .mk "if" [.block (.mk "more" [.block (.mk "n" []), .text "0"])],
       .mk "print" [.block (.mk "n" [])],
       .mk "count" [.block (.mk "minus" [.block (.mk "n" []), .text "1"])],
       .mk "end" []]⟩]
  blockdefs := [⟨"count", [.parameter "n"]⟩]

theorem bareHeads_countdown : countdown.BareHeads :=
  .of_two (by decide) _ _ _ _

theorem roots_balanced_countdown : countdown.BareHeads ∧ ∃ code t, (countdown.compile false).result = .ok code ∧
      code.run { memory := .new 100 10000 } 300 = some t ∧ t.abort ≠ some (.roots .underflow) ∧
      t.memory.roots.depth = 0 ∧ t.memory.roots.savedDepth = 0 := by
  refine ⟨bareHeads_countdown, ?_⟩
  obtain ⟨code, hcode, hends⟩ := countdown.exists_code false
    (fun code => (code.run { memory := .new 100 10000 } 300).isSome) (by decide +kernel)
  obtain ⟨t, hrun⟩ := Option.isSome_iff_exists.mp hends
  refine ⟨code, t, hcode, hrun, ?_⟩
  exact (roots_balanced bareHeads_countdown hcode ⟨⟨_, _, rfl⟩, rfl⟩ .idle).2.1 300 t
    (Machine.run_eq_some_iff.mp hrun)

end Program

end Blockwork
