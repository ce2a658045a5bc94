import LambdaDurable.Context.Batch
import LambdaDurable.Context.Callback
import LambdaDurable.Context.Call
import LambdaDurable.Context.Invoke
import LambdaDurable.Context.Wait

/-! # The durable operations as one type of calls -/

namespace LambdaDurable

open Effects

/-- A call of a durable operation, but for its context and its name. A callback is created
and then awaited; codecs without a config are serde_json's. -/
inductive DurableCall (V I : Type)
  | step (config : StepConfig V)
  | wait (duration : Duration)
  | waitForCondition (config : WaitConditionConfig V)
  | callback (config : Option (CallbackConfig V)) (codec : Codec V)
  | callbackRaw (config : Option (CallbackConfig V)) (codec : Codec V)
  | waitForCallback (config : CallbackConfig V) (unitCodec : Codec Unit) (rawCodec : Codec String)
  | invoke (functionId : String) (input : Option I) (config : InvokeConfig I V)
  | runInChildContext (config : ChildContextConfig V)
  | map (items : List I) (config : MapConfig I V)
  | parallel (branches : List (Option String)) (config : BatchConfig V)

variable {V I : Type}

/-- Forget the value of a result. -/
def forget {T : Type} (p : Act V (DurableResult T)) : Act V (DurableResult Unit) :=
  p.andThen fun _ => .ret (.ok ())

section

variable {T S : Type}

@[simp] theorem forget_ok (a : T) :
    forget (.ret (.ok a) : Act V (DurableResult T)) = .ret (.ok ()) := rfl

@[simp] theorem forget_error (e : DurableError) :
    forget (.ret (.error e) : Act V (DurableResult T)) = .ret (.error e) := rfl

@[simp] theorem forget_act (e : Effect V) (k : Answer e → Act V (DurableResult T)) :
    forget (.act e k) = .act e fun a => forget (k a) := rfl

@[simp] theorem forget_suspend (result : TerminationResult) :
    forget (suspend result : Act V (DurableResult T)) = suspend result :=
  suspend_andThen ..

theorem forget_andThen (p : Act V (DurableResult T)) (f : T → Act V (DurableResult S)) :
    forget (p.andThen f) = p.andThen fun a => forget (f a) :=
  Prog.andThen_assoc ..

end

namespace DurableCall

/-- The type of the operation's record. `wait_for_callback` has one of its own only in
the older layout; today it is a context. -/
def operationType : DurableCall V I → OperationType
  | step _ | waitForCondition _ => .step
  | wait _ => .wait
  | callback _ _ | callbackRaw _ _ | waitForCallback _ _ _ => .callback
  | invoke _ _ _ => .chainedInvoke
  | runInChildContext _ | map _ _ | parallel _ _ => .context

def program (ctx : ExecutionContext) (name : Option String) :
    DurableCall V I → Act V (DurableResult Unit)
  | step config => forget (ctx.step name userStep config)
  | wait duration => ctx.wait name duration
  | waitForCondition config => forget (ctx.waitForCondition name config)
  | callback config codec =>
    forget ((ctx.createCallback name config codec).andThen CallbackHandle.wait)
  | callbackRaw config codec =>
    forget ((ctx.createCallback name config codec).andThen CallbackHandle.waitRaw)
  | waitForCallback config unitCodec rawCodec =>
    forget (ctx.waitForCallback name config unitCodec rawCodec)
  | invoke functionId input config =>
    forget (ctx.invokeWithConfig name functionId input config)
  | runInChildContext config => forget (ctx.runInChildContext name userContext config)
  | map items config => forget (ctx.map name items config)
  | parallel branches config => forget (ctx.parallel name branches config)

end DurableCall

end LambdaDurable
