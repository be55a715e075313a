import AuditLog.Proofs.Arrival
import AuditLog.Proofs.Stepwise

/-! Progress. A token is never told without going on in the text, and a reader that asks for tokens pays a unit of
text for each, but for one: the last it asks for before a fault, or at the end. So all that loops over tokens
ends, on every text, and the source is read no oftener than once a chunk and once for the end. -/
namespace AuditLog
open Reading Reader

structure Spends (α : Type) (r : Reader α) (s : Session) : Prop where
  ok : ∀ a t, r.run s = (.ok a,t) → r.asks s + t.unread ≤ s.unread
  error : ∀ fault t, r.run s = (.error fault,t) → r.asks s ≤ s.unread + 1

namespace Spends
open Lexer

variable {α β : Type}

theorem bounded {r : Reader α} {s : Session} (spends : Spends α r s) : r.asks s ≤ s.unread + 1 := by
  cases ran : r.run s with
  | mk result t =>
      cases result with
      | error fault => exact spends.error fault t ran
      | ok a => exact Nat.le_succ_of_le (Nat.le_of_add_right_le (spends.ok a t ran))

theorem quiet {r : Reader α} {s : Session} (asks : r.asks s = 0) : Spends α r s where
  ok a t ran := by
    rw [asks,Nat.zero_add]
    exact r.forwardTo ran
  error fault t _ := by
    rw [asks]
    exact Nat.zero_le _

theorem asksThen {r : Reader α} {f : α → Reader β} {s m : Session} {a : α} (ran : r.run s = (.ok a,m)) :
    (r >>= f).asks s = r.asks s + (f a).asks m := by
  rw [asksBind,ran]

theorem asksStop {r : Reader α} {f : α → Reader β} {s m : Session} {fault : Fault} (ran : r.run s = (.error fault,m)) :
    (r >>= f).asks s = r.asks s := by
  rw [asksBind,ran]
  rfl

theorem bind {r : Reader α} {f : α → Reader β} {s : Session} (first : Spends α r s)
    (second : ∀ a m, r.run s = (.ok a,m) → Spends β (f a) m) : Spends β (r >>= f) s where
  ok b t done := by
    obtain ⟨a,m,ran,rest⟩ := okBind done
    have taken := first.ok a m ran
    have others := (second a m ran).ok b t rest
    rw [asksThen ran]
    omega
  error fault t done := by
    rcases errorBind done with ran | ⟨a,m,ran,rest⟩
    · rw [asksStop ran]
      exact first.error fault t ran
    · have taken := first.ok a m ran
      have others := (second a m ran).error fault t rest
      rw [asksThen ran]
      omega

theorem asking {f : Option Token → Reader α} {s : Session}
    (ended : ∀ m, next.run s = (.ok none,m) → (f none).asks m = 0 ∧ ∃ fault u, (f none).run m = (.error fault,u))
    (goesOn : ∀ token m, next.run s = (.ok (some token),m) → Spends α (f (some token)) m) :
    Spends α (next >>= f) s where
  ok b t done := by
    obtain ⟨found,m,read,rest⟩ := okBind done
    cases found with
    | none =>
        obtain ⟨_,_,_,failed⟩ := ended m read
        cases failed.symm.trans rest
    | some token =>
        have shorter := nextTakes read
        have others := (goesOn token m read).ok b t rest
        rw [asksThen read]
        show 1 + _ + _ ≤ _
        omega
  error fault t done := by
    rcases errorBind done with read | ⟨found,m,read,rest⟩
    · rw [asksStop read]
      exact Nat.le_add_left 1 _
    · rw [asksThen read]
      show 1 + _ ≤ _
      cases found with
      | none =>
          rw [(ended m read).1]
          exact Nat.le_add_left 1 _
      | some token =>
          have shorter := nextTakes read
          have others := (goesOn token m read).error fault t rest
          omega

theorem stepwise : Stepwise Spends where
  done a s := quiet rfl
  fails fault s := quiet rfl
  notes n s := quiet rfl
  binds first second := bind first second
  states {α f s} _ holds := by
    refine bind (quiet rfl) (fun seen m looked => ?_)
    cases looked
    exact holds
  goesOn {α f fault s} gives goes := by
    refine asking (fun m _ => ?_) goes
    rw [gives]
    exact ⟨rfl,_,_,rfl⟩
  named colon goes := asking (fun m read => absurd read (Piecewise.colonGoes colon)) goes

theorem noneAsks (rule : Rule) (s : Session) : (rule.read none).asks s = 0 := by
  induction rule with
  | nullable rule ih => exact ih
  | _ => rfl

theorem readNext (rule : Rule) (s : Session) : rule.readNext.asks s ≤ s.unread + 1 := by
  cases read : next.run s with
  | mk result m =>
      rw [Rule.readNext]
      cases result with
      | error fault =>
          rw [asksStop read]
          exact Nat.le_add_left 1 _
      | ok found =>
          rw [asksThen read]
          show 1 + _ ≤ _
          cases found with
          | none =>
              rw [noneAsks]
              exact Nat.le_add_left 1 _
          | some token =>
              have shorter := nextTakes read
              have others := (stepwise.reads rule (some token) m).bounded
              omega

theorem once {f : Option Token → Reader α} (silent : ∀ found m, (f found).asks m = 0) (s : Session) :
    (next >>= f).asks s = 1 := by
  rw [asksBind]
  split
  · rfl
  · rw [silent]
    rfl

theorem mapAsks (r : Reader α) (f : α → β) (s : Session) : (f <$> r).asks s = r.asks s := by
  refine (asksBind r (fun a => pure (f a)) s).trans ?_
  split <;> rfl

theorem operation (op : Operation) (s : Session) : op.reader.asks s ≤ s.unread + 1 := by
  cases op with
  | next => rw [Operation.reader,mapAsks]; exact Nat.le_add_left 1 _
  | nextText =>
      rw [Operation.reader,mapAsks,nextText,once (fun found m => by split <;> rfl)]
      exact Nat.le_add_left 1 _
  | flag =>
      have silent : flag.asks s = 0 := by
        rw [flag,asksBind]
        show 0 + Reading.asks _ s = 0
        split <;> rfl
      rw [Operation.reader,mapAsks,silent]
      exact Nat.zero_le _
  | leafText => exact Nat.zero_le _
  | subtree => rw [Operation.reader,mapAsks]; exact (stepwise.subtrees s).bounded
  | readNext rule => rw [Operation.reader,mapAsks]; exact readNext rule s
  | readCurrent rule => rw [Operation.reader,mapAsks]; exact (stepwise.readsCurrent rule s).bounded
  | close => exact Nat.zero_le _

theorem demand (wanted : Token) (flaw : EnvelopeFlaw) (s : Session) : Spends Unit (Trail.demand wanted flaw) s := by
  refine asking (fun m _ => ?_) (fun token m _ => ?_)
  · refine ⟨rfl,?_⟩
    exact ⟨_,_,rfl⟩
  · refine bind (quiet rfl) (fun u v looked => ?_)
    cases looked
    split
    · exact quiet rfl
    · exact quiet rfl

theorem envelope (field : Text) (s : Session) : Spends Unit (Trail.envelope field) s :=
  bind (demand _ _ s) (fun _ m _ => bind (demand _ _ m) (fun _ u _ => demand _ _ u))

end Spends

namespace Trail

theorem moreAsks (s : Session) : more.asks s = 1 :=
  Spends.once (fun found m => by split <;> rfl) s

theorem collectSpends (terms : Terms) (limit : Option Nat) (s : Session) :
    collectAsks terms limit s ≤ s.unread + 1 := by
  induction size : s.unread using Nat.strongRecOn generalizing limit s with
  | _ size ih =>
      subst size
      rw [collectAsks,moreAsks]
      split
      · omega
      · omega
      · rename_i m asked
        have shorter := moreTakes asked
        have spends := Spends.stepwise.records terms m
        split
        · rename_i fault u made
          have := spends.error fault u made
          show 1 + ((event terms).asks m + 0) ≤ _
          omega
        · rename_i e u made
          have taken := spends.ok e u made
          have later (limit : Option Nat) := ih u.unread (by omega) limit u rfl
          split
          · have := later none
            show 1 + ((event terms).asks m + collectAsks terms none u) ≤ _
            omega
          · rename_i n
            split
            · show 1 + ((event terms).asks m + 0) ≤ _
              omega
            · have := later (some (n - 1))
              show 1 + ((event terms).asks m + collectAsks terms (some (n - 1)) u) ≤ _
              omega

end Trail

namespace Decoding

theorem asksBounded (terms : Terms) (limit : Option Nat) (source : Source) :
    asks terms limit source ≤ source.pending.flatten.length + 1 := by
  have spends := Spends.envelope terms.recordsField (.ofSource source)
  have whole : (Session.ofSource source).unread = source.pending.flatten.length := rfl
  rw [asks]
  split
  · rename_i fault s entered
    have := spends.error fault s entered
    omega
  · rename_i s entered
    have taken := spends.ok () s entered
    have later := Trail.collectSpends terms limit s
    omega

end Decoding
namespace Cursor

theorem nextAdvances {c d : Cursor} {token : Token} (inside : c.Inside) (stepped : c.next = (.ok (some token),d)) :
    c.stop < d.stop ∧ d.stop = d.input.position := by
  have shorter : d.unread < c.unread := by
    have takes := @nextTakes c token
    rw [stepped] at takes
    exact takes rfl
  unfold next at stepped
  split at stepped
  · cases stepped
  · split at stepped <;> cases stepped
    rename_i ran
    obtain ⟨_,⟨taken,rest,position⟩,_⟩ := tokenLater inside ran
    have whole := congrArg List.length rest
    rw [List.length_append] at whole
    have parts : c.input.rest.length = taken.length + _ := whole
    refine ⟨?_,rfl⟩
    have before := inside.stop
    simp only [unread,Input.remaining,advanced] at shorter ⊢
    omega

theorem nextPaid {c d : Cursor} {result : Except Fault (Option Token)} (stepped : c.next = (result,d)) :
    (result.toOption.bind id).toList.length + d.unread ≤ c.unread := by
  have forward : d.unread ≤ c.unread := by
    have forward := c.nextForward
    rwa [stepped] at forward
  cases result with
  | error fault => exact Nat.le_trans (Nat.le_of_eq (Nat.zero_add _)) forward
  | ok found =>
      cases found with
      | none => exact Nat.le_trans (Nat.le_of_eq (Nat.zero_add _)) forward
      | some token =>
          have takes := @nextTakes c token
          rw [stepped] at takes
          have shorter : d.unread < c.unread := takes rfl
          show 1 + _ ≤ _
          omega

end Cursor

namespace Operation

theorem unreadAfter (ops : List Operation) (s : Session) : (after ops s).unread ≤ s.unread := by
  induction ops generalizing s with
  | nil => exact Nat.le_refl _
  | cons op ops ih => exact Nat.le_trans (ih _) (op.reader.forward s)

theorem toldPaid (n : Nat) (s : Session) : (told n s).length + (after (List.replicate n .next) s).unread ≤ s.unread := by
  induction n with
  | zero => exact Nat.le_of_eq (Nat.zero_add _)
  | succ n ih =>
      cases stepped : (after (List.replicate n .next) s).cursor.next with
      | mk result d =>
          obtain ⟨last,tokens⟩ := stepTold n stepped
          have paid := Cursor.nextPaid stepped
          rw [tokens,Session.unread,last,List.length_append,Nat.add_assoc]
          exact Nat.le_trans (Nat.add_le_add_left paid _) ih

def Tells (s : Session) : Prop := ∃ token d, s.cursor.next = (.ok (some token),d)

theorem toldFirst {s : Session} {token : Token} {d : Cursor} (stepped : s.cursor.next = (.ok (some token),d)) (n : Nat) :
    told (n + 1) s = token :: told n ⟨d,s.noted⟩ ∧
      after (List.replicate (n + 1) .next) s = after (List.replicate n .next) ⟨d,s.noted⟩ := by
  obtain ⟨outcome,last⟩ := nextRan stepped
  rw [told,List.replicate_succ,transcript,after,outcome,last]
  exact ⟨rfl,rfl⟩

theorem drainEnds (s : Session) :
    ∃ n ≤ s.unread, (told n s).length = n ∧ ¬ Tells (after (List.replicate n .next) s) := by
  induction size : s.unread using Nat.strongRecOn generalizing s with
  | _ size ih =>
      subst size
      by_cases tells : Tells s
      · obtain ⟨token,d,stepped⟩ := tells
        have paid := Cursor.nextPaid stepped
        have shorter : d.unread < s.unread := Nat.lt_of_lt_of_le (Nat.lt_add_of_pos_left Nat.one_pos) paid
        obtain ⟨n,bounded,each,ended⟩ := ih d.unread shorter ⟨d,s.noted⟩ rfl
        obtain ⟨tokens,last⟩ := toldFirst stepped n
        refine ⟨n + 1,Nat.lt_of_le_of_lt bounded shorter,?_,?_⟩
        · rw [tokens,List.length_cons,each]
        · rw [last]
          exact ended
      · exact ⟨0,Nat.zero_le _,rfl,tells⟩

end Operation

namespace Input

theorem Supplied.reads {chunks : List Text} {i : Input} (supplied : i.Supplied chunks) (sound : i.source.broken = none) :
    i.source.history.count .read ≤ chunks.length + 1 := by
  cases supplied with
  | @holds arrived later split holds =>
      rw [holds.reads,List.count_replicate_self,split,List.length_append]
      omega
  | spent spent =>
      rw [(spent.told sound).2]
      exact Nat.le_of_eq List.count_replicate_self

end Input

namespace Cursor

structure Frugal (chunks : List Text) (c : Cursor) : Prop where
  reached : Reached chunks.flatten c
  fed : c.Fed chunks
  reads : c.input.source.history.count .read ≤ chunks.length + 1

theorem nextShut {c d : Cursor} {result : Except Fault (Option Token)} (stepped : c.next = (result,d)) :
    d.closed = c.closed := by
  unfold next at stepped
  split at stepped
  · cases stepped
    rfl
  · split at stepped <;> cases stepped <;> rfl

theorem frugalNext {chunks : List Text} {c d : Cursor} {result : Except Fault (Option Token)}
    (frugal : c.Frugal chunks) (stepped : c.next = (result,d)) : d.Frugal chunks := by
  have reached := reachedNext frugal.reached stepped
  have fed := fedNext frugal.fed stepped
  refine ⟨reached,fed,?_⟩
  cases shut : d.closed with
  | false => exact (fed shut).reads (settledReady reached.settled shut).sound.1
  | true =>
      obtain ⟨rfl,_⟩ := nextClosed ((nextShut stepped).symm.trans shut) stepped
      exact frugal.reads

theorem frugalClose {chunks : List Text} {c : Cursor} (frugal : c.Frugal chunks) : c.close.Frugal chunks := by
  refine ⟨reachedClose frugal.reached,fedClose frugal.fed,?_⟩
  unfold close
  split
  · exact frugal.reads
  · exact frugal.reads

theorem frugalAfter (chunks : List Text) (ops : List Operation) :
    (Operation.after ops (.ofSource (.ofChunks chunks))).cursor.Frugal chunks :=
  Session.keptAfter ops frugalNext frugalClose ⟨reachedAfter chunks [],fedOfSource chunks none,Nat.zero_le _⟩

end Cursor

namespace Session

/-- What holds of a session over these chunks, whatever was asked of it before. -/
structure Progresses (chunks : List Text) (s : Session) : Prop where
  unread : s.unread ≤ chunks.flatten.length
  advances : ∀ token d, s.cursor.next = (.ok (some token),d) →
    s.cursor.stop + 1 ≤ d.stop ∧ d.stop ≤ chunks.flatten.length
  told : ∀ n, (Operation.told n s).length ≤ s.unread
  drains : ∃ n ≤ s.unread, (Operation.told n s).length = n ∧
    ¬ Operation.Tells (Operation.after (List.replicate n .next) s)
  asks : ∀ op : Operation, op.reader.asks s ≤ s.unread + 1
  reads : s.cursor.input.source.history.count .read ≤ chunks.length + 1

theorem progressesAfter (chunks : List Text) (ops : List Operation) :
    (Operation.after ops (.ofSource (.ofChunks chunks))).Progresses chunks := by
  have frugal := Cursor.frugalAfter chunks ops
  have advances (token : Token) (d : Cursor)
      (stepped : (Operation.after ops (.ofSource (.ofChunks chunks))).cursor.next = (.ok (some token),d)) :
      (Operation.after ops (.ofSource (.ofChunks chunks))).cursor.stop + 1 ≤ d.stop ∧ d.stop ≤ chunks.flatten.length := by
    obtain ⟨further,stop⟩ := Cursor.nextAdvances (Cursor.insideAfter _ ops) stepped
    refine ⟨further,?_⟩
    have opened : d.closed = false := (Cursor.nextShut stepped).trans (Cursor.nextOpened stepped)
    obtain ⟨front,whole,place⟩ := (Cursor.frugalNext frugal stepped).reached.split opened
    rw [stop,← place,whole,List.length_append]
    exact Nat.le_add_right _ _
  exact {
    unread := Operation.unreadAfter ops _
    advances := advances
    told := fun n => Nat.le_trans (Nat.le_add_right _ _) (Operation.toldPaid n _)
    drains := Operation.drainEnds _
    asks := fun op => Spends.operation op _
    reads := frugal.reads }

end Session

/-- Whatever was asked of a session over these chunks before, be it that it failed: the next token it tells ends
further on in the text; asked for one token after another it tells no more of them than units are left, and then
stops; whatever is asked next asks for no more tokens than that, but for one; and the source was read no oftener than
once for each chunk and once for the end. A whole decoding, too, asks for no more tokens than its source has units,
but for one. -/
theorem readingEnds :
    (∀ chunks ops, (Operation.after ops (.ofSource (.ofChunks chunks))).Progresses chunks) ∧
      (∀ terms limit source, Decoding.asks terms limit source ≤ source.pending.flatten.length + 1) ∧
      ∀ terms limit size t, Decoding.asks terms limit (.ofText size t) ≤ t.length + 1 := by
  refine ⟨Session.progressesAfter,Decoding.asksBounded,fun terms limit size t => ?_⟩
  have bounded := Decoding.asksBounded terms limit (.ofText size t)
  rwa [Source.ofTextWhole] at bounded

end AuditLog
