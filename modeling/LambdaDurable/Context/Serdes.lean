import LambdaDurable.Context.Effect

/-! # Serialization that terminates the invocation when it fails -/

namespace LambdaDurable

variable {V T : Type}

/-- The arguments of the four functions that name the operation. -/
structure SerdesSite where
  entityId : String
  name : Option String
  durableExecutionArn : String

namespace SerdesSite

def context (site : SerdesSite) : SerdesContext := ⟨site.entityId, site.durableExecutionArn⟩

def message (site : SerdesSite) (problem : String) : String :=
  let name := site.name.getD "operation"
  s!"{problem} for {name}({site.entityId})"

def failure (site : SerdesSite) (problem e : String) : String :=
  let message := site.message problem
  s!"{message}: {e}"

end SerdesSite

def ExecutionContext.site (ctx : ExecutionContext) (entityId : String) (name : Option String) :
    SerdesSite :=
  ⟨entityId, name, ctx.durableExecutionArn⟩

def terminateForSerdesFailure (message : String) : Act V T :=
  suspend (.withMessage .serdesFailed message)

def safeSerialize (codec : Codec T) (value : Option T) (site : SerdesSite) :
    Act V (Option String) :=
  match codec.serialize value site.context with
  | .ok v => .ret v
  | .error e => terminateForSerdesFailure (site.failure "Serialization failed" e)

def safeDeserialize (codec : Codec T) (data : Option String) (site : SerdesSite) :
    Act V (Option T) :=
  match codec.deserialize data site.context with
  | .ok v => .ret v
  | .error e => terminateForSerdesFailure (site.failure "Deserialization failed" e)

def safeSerializeRequiredWithSerdes (serdes : Serdes T) (value : T) (site : SerdesSite) :
    Act V String :=
  match serdes.serialize (some value) site.context with
  | .ok (some v) => .ret v
  | .ok none => terminateForSerdesFailure (site.message "Serialization returned None")
  | .error e => terminateForSerdesFailure (site.failure "Serialization failed" e)

def safeDeserializeRequiredWithSerdes (serdes : Serdes T) (data : String) (site : SerdesSite) :
    Act V T :=
  match serdes.deserialize (some data) site.context with
  | .ok (some v) => .ret v
  | .ok none => terminateForSerdesFailure (site.message "Deserialization returned None")
  | .error e => terminateForSerdesFailure (site.failure "Deserialization failed" e)

end LambdaDurable
