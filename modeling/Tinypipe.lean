import Tinypipe.Vm.PausedRun
import Tinypipe.Vm.Raise
import Tinypipe.Ir.FlatBuffers
import Tinypipe.Vm.Runnable
import Tinypipe.Vm.Arithmetic
import Tinypipe.Vm.LoopBody
import Tinypipe.Vm.Nesting
import Tinypipe.Vm.Budget
import Tinypipe.Vm.Scopes
import Tinypipe.Compiler.Soundness
import Tinypipe.Vm.Dependencies
import Tinypipe.Daemon.Workers
import Tinypipe.Store.Requests
import Tinypipe.Server.Checkpoints
import Tinypipe.Server.Deploy
import Tinypipe.Server.Endpoints
import Tinypipe.Server.Forks
import Tinypipe.Server.Isolation
import Tinypipe.Server.Resumers
import Tinypipe.Server.Rounds
import Tinypipe.Api.Merge
import Tinypipe.Vm.Exactness
import Tinypipe.Vm.Recursion
import Tinypipe.Vm.Literals
import Tinypipe.Daemon.Invokes
import Tinypipe.Daemon.Answers
import Tinypipe.Daemon.RoundRobin
import Tinypipe.Store.Lineage
import Tinypipe.Compiler.Substitution
import Tinypipe.Compiler.FusionRounds
import Tinypipe.Vm.Folding
import Tinypipe.Compiler.Acyclic
import Tinypipe.Compiler.Meta
import Tinypipe.Compiler.Races
import Tinypipe.Vm.Lowering
import Tinypipe.Daemon.Registering
import Tinypipe.Vm.Once
import Tinypipe.Vm.Fusion
import Tinypipe.Vm.Chains
import Tinypipe.Tools.Conversion
import Tinypipe.Server.DynamicPlans
import Tinypipe.Env.Dotenv
import Tinypipe.Env.Template
import Tinypipe.Ir.Summary
import Tinypipe.Server.Query
import Tinypipe.Vm.DictLiterals
import Tinypipe.Vm.Stored
import Tinypipe.Store.Rows
import Tinypipe.Server.EnvCheck
import Tinypipe.Server.Routes
