import AgentConfig.Main
import AgentConfig.Platform.Draft
import AgentConfig.Proofs.Hook.Guard
import AgentConfig.Proofs.IgnoreFile.Update
import AgentConfig.Proofs.Json.KeyCover
import AgentConfig.Proofs.Loading
import AgentConfig.Proofs.Output.ManifestFile
import AgentConfig.Proofs.Output.Ownership
import AgentConfig.Proofs.Output.Rebuild
import AgentConfig.Proofs.Output.SecondWrite
import AgentConfig.Proofs.Output.SharedDocument
import AgentConfig.Proofs.Output.StaleKeys
import AgentConfig.Proofs.Output.TargetOrder
import AgentConfig.Proofs.Platform.Fences
import AgentConfig.Proofs.Platform.Greedy
import AgentConfig.Proofs.Platform.Instructions
import AgentConfig.Proofs.Platform.Listing
import AgentConfig.Proofs.Platform.Scopes
import AgentConfig.Proofs.Platform.Toml
import AgentConfig.Proofs.Recognition
